import ContractAudit.Proofs.Text.Language
import ContractAudit.Proofs.Text.Spelling

/-!
# Texts cut at a character

Where a character stands that a pattern cannot match, no match goes over it. A blind pattern then
reads the text before that character as if the text ended there, and the text behind it as if the
text started there (`Pattern.Blind.read_alike`, `Pattern.Blind.find?_alike`). So the matches in a
text can be replaced on both sides of such a character apart from each other
(`Pattern.Blind.replaceIn_cut`).
-/

namespace ContractAudit

open Cursor

/-! ## Answers that agree -/

section Rel

variable {α β γ δ : Type} {S : α → β → Prop}

theorem rel_or {x x' : Option α} {y y' : Option β} (h : Option.Rel S x y)
    (h' : Option.Rel S x' y') : Option.Rel S (x.or x') (y.or y') := by
  cases h with
  | some h => exact .some h
  | none => exact h'

theorem rel_findSome? {R : γ → δ → Prop} {f : γ → Option α} {g : δ → Option β}
    (hfg : ∀ c d, R c d → Option.Rel S (f c) (g d)) :
      ∀ {cs : List γ} {ds : List δ}, List.Forall₂ R cs ds →
      Option.Rel S (cs.findSome? f) (ds.findSome? g)
  | [], [], .nil => .none
  | c :: cs, d :: ds, .cons h hs => by
    have hcons {ε ζ : Type} (f : ε → Option ζ) (e : ε) (es : List ε) :
        (e :: es).findSome? f = (f e).or (es.findSome? f) := by
      rw [List.findSome?_cons]
      cases f e <;> rfl
    rw [hcons, hcons]
    exact rel_or (hfg c d h) (rel_findSome? hfg hs)

end Rel

/-! ## The same text at two places -/

namespace Cursor

/-- The places reached from two places over the same start of `text`. -/
def Alike (front front' text tail tail' : List Char) (c d : Cursor) : Prop :=
  ∃ u w, text = u ++ w ∧ c = between (front ++ u) (w ++ tail) ∧
    d = between (front' ++ u) (w ++ tail')

variable {front front' text tail tail' : List Char} {cls : Char → Bool}

theorem head?_any_of_imp {cls' : Char → Bool} (hcls : ∀ a, cls a → cls' a)
    (h : tail.head?.any cls' = false) : tail.head?.any cls = false := by
  cases tail with
  | nil => rfl
  | cons a tail => exact Bool.eq_false_iff.2 fun ha => Bool.eq_false_iff.1 h (hcls a ha)

theorem alike_between : Alike front front' text tail tail' (between front (text ++ tail))
    (between front' (text ++ tail')) :=
  ⟨[], text, rfl, by rw [List.append_nil], by rw [List.append_nil]⟩

theorem run_of_head? (h : tail.head?.any cls = false) :
    (between front tail).run cls = [between front tail] := by
  cases tail with
  | nil => rfl
  | cons a tail =>
    have ha : cls a = false := h
    rw [run_between_cons, ha]
    rfl

/-- Runs over the same text stop at the same places. -/
theorem run_alike_append (h : tail.head?.any cls = false) (h' : tail'.head?.any cls = false) :
    ∀ {w u : List Char}, text = u ++ w → List.Forall₂ (Alike front front' text tail tail')
      ((between (front ++ u) (w ++ tail)).run cls) ((between (front' ++ u) (w ++ tail')).run cls)
  | [], u, htext => by
    rw [List.nil_append, List.nil_append, run_of_head? h, run_of_head? h']
    exact .cons ⟨u, [], htext, rfl, rfl⟩ .nil
  | a :: w, u, htext => by
    have hhere : List.Forall₂ (Alike front front' text tail tail')
        [between (front ++ u) (a :: (w ++ tail))] [between (front' ++ u) (a :: (w ++ tail'))] :=
      .cons ⟨u, a :: w, htext, rfl, rfl⟩ .nil
    rw [List.cons_append, List.cons_append, run_between_cons, run_between_cons]
    by_cases ha : cls a
    · rw [if_pos ha, if_pos ha, List.append_assoc, List.append_assoc]
      exact List.rel_append (run_alike_append h h' (by simpa using htext)) hhere
    · rw [if_neg ha, if_neg ha]
      exact hhere

theorem run_alike (h : tail.head?.any cls = false) (h' : tail'.head?.any cls = false) :
    List.Forall₂ (Alike front front' text tail tail') ((between front (text ++ tail)).run cls)
      ((between front' (text ++ tail')).run cls) := by
  have hrun := @run_alike_append front front' text tail tail' cls h h' text [] rfl
  rwa [List.append_nil, List.append_nil] at hrun

end Cursor

namespace Pattern

variable {p : Pattern} {ok : Char → Bool} {front front' text tail tail' : List Char}

/-- What consists of characters of the class ends where the class does. -/
theorem prefix_of_head? (h : tail.head?.any ok = false) {u : List Char} (hu : ∀ a ∈ u, ok a)
    (hpre : u <+: text ++ tail) : u <+: text := by
  cases tail with
  | nil => rwa [List.append_nil] at hpre
  | cons a tail => exact prefix_of_prefix_append_cons h hu hpre

variable {same : Char → Char → Bool}

theorem all_of_forall₂ : ∀ {cs u : List Char},
    List.Forall₂ (fun a b => same a b) cs u → (∀ b ∈ cs, ∀ a, same b a → ok a) → ∀ a ∈ u, ok a
  | [], [], .nil, _ => List.forall_mem_nil _
  | b :: _, a :: _, .cons hba hsame, hcs =>
    List.forall_mem_cons.2 ⟨hcs b List.mem_cons_self a hba,
      all_of_forall₂ hsame fun c hc => hcs c (List.mem_cons_of_mem b hc)⟩

/-- A word is read only in front of the text that it cannot go over. -/
theorem past?_append_iff {cs : List Char} (hcs : ∀ b ∈ cs, ∀ a, same b a → ok a)
    (h : tail.head?.any ok = false) {d : Cursor} :
    (between front (text ++ tail)).past? same cs = some d ↔
      ∃ u w, text = u ++ w ∧ List.Forall₂ (fun a b => same a b) cs u ∧
        d = between (front ++ u) (w ++ tail) := by
  rw [past?_between_iff]
  constructor
  · rintro ⟨u, r, hrest, hsame, rfl⟩
    obtain ⟨w, rfl⟩ : u <+: text := prefix_of_head? h (all_of_forall₂ hsame hcs) ⟨r, hrest.symm⟩
    rw [List.append_assoc] at hrest
    exact ⟨u, w, rfl, hsame, by rw [List.append_cancel_left hrest]⟩
  · rintro ⟨u, w, rfl, hsame, rfl⟩
    exact ⟨u, w ++ tail, List.append_assoc u w tail, hsame, rfl⟩

theorem past?_alike {cs : List Char} (hcs : ∀ b ∈ cs, ∀ a, same b a → ok a)
    (h : tail.head?.any ok = false) (h' : tail'.head?.any ok = false) :
    Option.Rel (Alike front front' text tail tail') ((between front (text ++ tail)).past? same cs)
      ((between front' (text ++ tail')).past? same cs) := by
  cases hc : (between front (text ++ tail)).past? same cs with
  | some c =>
    obtain ⟨u, w, htext, hsame, rfl⟩ := (past?_append_iff hcs h).1 hc
    rw [(past?_append_iff hcs h').2 ⟨u, w, htext, hsame, rfl⟩]
    exact .some ⟨u, w, htext, rfl, rfl⟩
  | none =>
    cases hd : (between front' (text ++ tail')).past? same cs with
    | none => exact .none
    | some d =>
      obtain ⟨u, w, htext, hsame, -⟩ := (past?_append_iff hcs h').1 hd
      rw [(past?_append_iff hcs h).2 ⟨u, w, htext, hsame, rfl⟩] at hc
      cases hc

variable {α : Type}

theorem read_alt {q : Pattern} (c : Cursor) (ps : Parts) (k : Cursor → Parts → Option α) :
    (alt p q).read c ps k = (p.read c ps k).or (q.read c ps k) := by
  rw [read]
  cases p.read c ps k <;> rfl

theorem read_char_of_head? {cls : Char → Bool} (h : tail.head?.any cls = false) (ps : Parts)
    (k : Cursor → Parts → Option α) : (char cls).read (between front tail) ps k = none := by
  cases tail with
  | nil => rfl
  | cons a tail => exact if_neg (by simpa using h)

theorem read_char_cons {cls : Char → Bool} (a : Char) (ps : Parts) (k : Cursor → Parts → Option α) :
    (char cls).read (between front (a :: text)) ps k =
      if cls a then k (between (front ++ [a]) text) ps else none := by
  rw [← next_between]
  rfl

/-- A blind pattern gives like answers at two places that have the same text ahead of them, up to
where its matches cannot go on. -/
theorem Blind.read_alike {α β : Type} {S : α → β → Prop} (h : tail.head?.any ok = false)
    (h' : tail'.head?.any ok = false) :
      ∀ {p : Pattern} {front front' text : List Char} {ps ps' : Parts}
    {k : Cursor → Parts → Option α} {k' : Cursor → Parts → Option β}, p.Blind → p.Spells ok →
      (∀ c d qs qs', Alike front front' text tail tail' c d → Option.Rel S (k c qs) (k' d qs')) →
        Option.Rel S (p.read (between front (text ++ tail)) ps k)
          (p.read (between front' (text ++ tail')) ps' k')
  | char cls, front, front', [], ps, ps', k, k', _, hok, _ => by
    rw [List.nil_append, List.nil_append, read_char_of_head? (head?_any_of_imp hok h),
      read_char_of_head? (head?_any_of_imp hok h')]
    exact .none
  | char cls, front, front', a :: text, ps, ps', k, k', _, hok, hk => by
    rw [List.cons_append, List.cons_append, read_char_cons, read_char_cons]
    split
    · exact hk _ _ ps ps' ⟨[a], text, rfl, rfl, rfl⟩
    · exact .none
  | word same cs, front, front', text, ps, ps', k, k', _, hok, hk => by
    have hpast : Option.Rel (Alike front front' text tail tail')
        ((between front (text ++ tail)).past? same cs)
          ((between front' (text ++ tail')).past? same cs) :=
      past?_alike hok h h'
    rw [read, read]
    generalize (between front (text ++ tail)).past? same cs = x,
      (between front' (text ++ tail')).past? same cs = y at hpast
    cases hpast with
    | some hcd => exact hk _ _ ps ps' hcd
    | none => exact .none
  | check test, front, front', text, ps, ps', k, k', hp, _, hk => by
    unfold read
    rw [hp (between front' (text ++ tail')) (between front (text ++ tail))]
    split
    · exact hk _ _ ps ps' alike_between
    · exact .none
  | seq p q, front, front', text, ps, ps', k, k', hp, hok, hk => by
    refine read_alike (p := p) h h' hp.1 hok.1 fun c d qs qs' hcd => ?_
    obtain ⟨u, w, rfl, rfl, rfl⟩ := hcd
    refine read_alike (p := q) h h' hp.2 hok.2 fun c d rs rs' hcd => ?_
    obtain ⟨v, w, rfl, rfl, rfl⟩ := hcd
    exact hk _ _ rs rs' ⟨u ++ v, w, by simp, by simp, by simp⟩
  | alt p q, front, front', text, ps, ps', k, k', hp, hok, hk => by
    rw [read_alt, read_alt]
    exact rel_or (read_alike h h' hp.1 hok.1 hk) (read_alike h h' hp.2 hok.2 hk)
  | stretch cls, front, front', text, ps, ps', k, k', _, hok, hk =>
    rel_findSome? (fun c d hcd => hk c d ps ps' hcd)
      (run_alike (head?_any_of_imp hok h) (head?_any_of_imp hok h'))
  | shortStretch cls, front, front', text, ps, ps', k, k', _, hok, hk =>
    rel_findSome? (fun c d hcd => hk c d ps ps' hcd)
      (List.forall₂_reverse_iff.2 (run_alike (head?_any_of_imp hok h) (head?_any_of_imp hok h')))
  | many p, _, _, _, _, _, _, _, hp, _, _ => absurd hp id
  | named label p, front, front', text, ps, ps', k, k', hp, hok, hk =>
    read_alike (p := p) h h' hp hok fun c d _ _ hcd => hk c d _ _ hcd

/-! ## Searching -/

variable {a : Char}

theorem find?_of_at?_eq_none (hat : p.at? (between front (a :: text)) = none) :
    p.find? (between front (a :: text)) = p.find? (between (front ++ [a]) text) := by
  have hat' : p.at? ⟨front.length, front.getLast?, a :: text⟩ = none := hat
  rw [← next_between, find?, between, findFrom?, hat']
  rfl

/-- The same match at two places. -/
def AlikeHits (front front' text tail tail' : List Char) (g h : Hit) : Prop :=
  ∃ u v w, text = u ++ (v ++ w) ∧
    g.start = between (front ++ u) (v ++ (w ++ tail)) ∧
    g.stop = between (front ++ u ++ v) (w ++ tail) ∧
    h.start = between (front' ++ u) (v ++ (w ++ tail')) ∧
    h.stop = between (front' ++ u ++ v) (w ++ tail')

theorem Blind.at?_alike (hp : p.Blind) (hok : p.Spells ok) (h : tail.head?.any ok = false)
    (h' : tail'.head?.any ok = false) :
    Option.Rel (AlikeHits front front' text tail tail') (p.at? (between front (text ++ tail)))
      (p.at? (between front' (text ++ tail'))) := by
  refine hp.read_alike h h' hok fun c d qs qs' hcd => .some ?_
  obtain ⟨v, w, rfl, rfl, rfl⟩ := hcd
  exact ⟨[], v, w, rfl, by simp, by simp, by simp, by simp⟩

/-- Two searches through the same text find the same match, or both go on behind the text. -/
theorem Blind.find?_alike (hp : p.Blind) (hok : p.Spells ok) (h : tail.head?.any ok = false)
    (h' : tail'.head?.any ok = false) : ∀ text front front' : List Char,
    (∃ g g', AlikeHits front front' text tail tail' g g' ∧
      p.find? (between front (text ++ tail)) = some g ∧
      p.find? (between front' (text ++ tail')) = some g') ∨
    (p.find? (between front (text ++ tail)) = p.find? (between (front ++ text) tail) ∧
      p.find? (between front' (text ++ tail')) = p.find? (between (front' ++ text) tail'))
  | [], front, front' => Or.inr ⟨by simp, by simp⟩
  | a :: text, front, front' => by
    have hat : Option.Rel (AlikeHits front front' (a :: text) tail tail')
        (p.at? (between front (a :: text ++ tail))) (p.at? (between front' (a :: text ++ tail'))) :=
      hp.at?_alike hok h h'
    cases hg : p.at? (between front (a :: text ++ tail)) with
    | some g =>
      rw [hg] at hat
      cases hg' : p.at? (between front' (a :: text ++ tail')) with
      | none => rw [hg'] at hat; cases hat
      | some g' =>
        rw [hg'] at hat
        cases hat with
        | some halike => exact Or.inl ⟨g, g', halike, find?_of_at? hg, find?_of_at? hg'⟩
    | none =>
      rw [hg] at hat
      cases hg' : p.at? (between front' (a :: text ++ tail')) with
      | some g' => rw [hg'] at hat; cases hat
      | none =>
        rw [List.cons_append] at hg hg' ⊢
        rw [find?_of_at?_eq_none hg, List.cons_append, find?_of_at?_eq_none hg']
        rcases hp.find?_alike hok h h' text (front ++ [a]) (front' ++ [a]) with
          ⟨g, g', ⟨u, v, w, rfl, hstart, hstop, hstart', hstop'⟩, hfind, hfind'⟩ | ⟨hfind, hfind'⟩
        · refine Or.inl ⟨g, g', ⟨a :: u, v, w, rfl, ?_, ?_, ?_, ?_⟩, hfind, hfind'⟩
          · simpa using hstart
          · simpa using hstop
          · simpa using hstart'
          · simpa using hstop'
        · exact Or.inr ⟨by simpa using hfind, by simpa using hfind'⟩

/-! ## Replacing -/

/-- The text from a place on with every match replaced. -/
def replaced (p : Pattern) (new : List Char) (c : Cursor) : List Char :=
  spliceFrom new [] c (p.findAll c)

variable {new : List Char}

theorem spliceFrom_eq : ∀ (hs : List Hit) (done : List Char) (c : Cursor),
    spliceFrom new done c hs = done.reverse ++ spliceFrom new [] c hs
  | [], _, _ => rfl
  | h :: hs, done, c => by
    rw [spliceFrom, spliceFrom, spliceFrom_eq hs, spliceFrom_eq hs (new.reverseAux _)]
    simp [List.reverseAux_eq]

theorem replaced_of_find?_eq_none {c : Cursor} (h : p.find? c = none) :
    p.replaced new c = c.rest := by
  rw [replaced, findAll_eq_nil h]
  rfl

theorem Opens.replaced_of_find? (hopens : p.Opens ok) {c : Cursor} (hc : c.In text) {h : Hit}
    (hfind : p.find? c = some h) :
      p.replaced new c = c.textTo h.start ++ (new ++ p.replaced new h.stop) := by
  rw [replaced, hopens.findAll_eq_cons hc hfind, spliceFrom, spliceFrom_eq]
  simp [List.reverseAux_eq, replaced]

/-- Text without the start of a match stays. -/
theorem Opens.replaced_append (hopens : p.Opens ok)
    (hfind : p.find? (between front (text ++ tail)) = p.find? (between (front ++ text) tail)) :
    p.replaced new (between front (text ++ tail)) =
      text ++ p.replaced new (between (front ++ text) tail) := by
  cases hg : p.find? (between (front ++ text) tail) with
  | none =>
    rw [replaced_of_find?_eq_none hg, replaced_of_find?_eq_none (hfind.trans hg)]
    rfl
  | some g =>
    have hin : (between front (text ++ tail)).In (front ++ (text ++ tail)) := in_between _ _
    have hin' : (between (front ++ text) tail).In (front ++ text ++ tail) := in_between _ _
    obtain ⟨hstart, hle, -⟩ := reads_of_find? hin' hg
    rw [hopens.replaced_of_find? hin (hfind.trans hg), hopens.replaced_of_find? hin' hg]
    obtain ⟨u, r, rfl, hu⟩ := exists_between hstart hle
    rw [hu, textTo_between]
    have htext := textTo_between front (text ++ u) r
    rw [List.append_assoc, ← List.append_assoc front] at htext
    rw [htext]
    simp

theorem Opens.replaced_nil (hopens : p.Opens ok) : p.replaced new (between front []) = [] := by
  refine replaced_of_find?_eq_none (hopens.find?_eq_none (in_between front []) ?_)
  simp

theorem Opens.replaced_cons (hopens : p.Opens ok) (ha : ok a = false) :
    p.replaced new (between front (a :: text)) =
      a :: p.replaced new (between (front ++ [a]) text) := by
  have hat : p.at? (between front (a :: text)) = none := by
    cases hat : p.at? (between front (a :: text)) with
    | none => rfl
    | some h =>
      have hopen := (hopens _ _ _ _ _ (in_between front (a :: text)) (reads_of_at? hat).2).1
      exact absurd hopen (Bool.eq_false_iff.1 ha)
  exact @Opens.replaced_append p ok front [a] text new hopens (find?_of_at?_eq_none hat)

/-- In the same text at two places the same is replaced, up to where the text goes on
differently. -/
theorem Blind.exists_replaced (hp : p.Blind) (hopens : p.Opens ok) (hok : p.Spells ok)
    (new : List Char) (h : tail.head?.any ok = false) (h' : tail'.head?.any ok = false) :
      ∀ (text front front' : List Char),
    ∃ x, p.replaced new (between front (text ++ tail)) =
      x ++ p.replaced new (between (front ++ text) tail) ∧
      p.replaced new (between front' (text ++ tail')) =
        x ++ p.replaced new (between (front' ++ text) tail') := by
  intro text
  -- Behind each match the text is shorter.
  induction hn : text.length using Nat.strongRecOn generalizing text with
  | _ n ih =>
  intro front front'
  subst hn
  rcases hp.find?_alike hok h h' text front front' with
    ⟨g, g', ⟨u, v, w, rfl, hstart, hstop, hstart', hstop'⟩, hfind, hfind'⟩ | ⟨hfind, hfind'⟩
  · have hlt : w.length < (u ++ (v ++ w)).length := by
      obtain ⟨hin, -, hreads⟩ := reads_of_find? (in_between front _) hfind
      have hlt := (hopens _ _ _ _ _ hin hreads).2
      rw [hstart, hstop, offset_between, offset_between] at hlt
      simp only [List.length_append] at hlt ⊢
      omega
    obtain ⟨x, hx, hx'⟩ := ih w.length hlt w rfl (front ++ u ++ v) (front' ++ u ++ v)
    refine ⟨u ++ (new ++ x), ?_, ?_⟩
    · rw [hopens.replaced_of_find? (in_between front _) hfind, hstart, hstop, hx,
        List.append_assoc u, List.append_assoc v, textTo_between]
      simp
    · rw [hopens.replaced_of_find? (in_between front' _) hfind', hstart', hstop', hx',
        List.append_assoc u, List.append_assoc v, textTo_between]
      simp
  · exact ⟨text, hopens.replaced_append hfind, hopens.replaced_append hfind'⟩

/-- On the two sides of a character that the pattern cannot match, the matches are replaced
apart. -/
theorem Blind.replaceIn_cut (hp : p.Blind) (hopens : p.Opens ok) (hok : p.Spells ok)
    (ha : ok a = false) (cs ds : List Char) :
    p.replaceIn new (cs ++ a :: ds) = p.replaceIn new cs ++ a :: p.replaceIn new ds := by
  have hcut : (a :: ds).head?.any ok = false := ha
  have hend : ([] : List Char).head?.any ok = false := rfl
  obtain ⟨x, hx, hcs⟩ := hp.exists_replaced hopens hok new hcut hend cs [] []
  obtain ⟨y, hy, hds⟩ := hp.exists_replaced hopens hok new hend hend ds ([] ++ cs ++ [a]) []
  rw [List.append_nil, hopens.replaced_nil, List.append_nil] at hcs hy hds
  rw [hopens.replaced_cons ha, hy, ← hds, ← hcs] at hx
  exact hx

end Pattern

end ContractAudit
