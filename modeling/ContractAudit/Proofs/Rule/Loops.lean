import ContractAudit.Proofs.Rule.LoopNest
import ContractAudit.Proofs.Rule.Places
import ContractAudit.Proofs.Rule.Sign

/-!
# Loops that call out

Which loops `Detector.unboundedLoopExternalCall` marks, in terms of the statements and their texts
alone. The header of a loop over a dynamic array of the state (`Variable.IsDynamicArray`) mentions
its length (`MentionsLength`), and an external call is in the body of the loop if every statement
behind the header, up to the call, is deeper than the header (`CallsWithin`).
-/

namespace ContractAudit

open Pattern Cursor

/-! ## Arrays -/

/-- The type of the variable ends with empty brackets. -/
def Variable.IsDynamicArray (v : Variable) : Prop :=
  ∃ front gap tail, v.typeText.toList = front ++ '[' :: (gap ++ ']' :: tail) ∧
    (∀ a ∈ gap, isBlank a) ∧ (tail = [] ∨ tail = ['\n'])

theorem Variable.isDynamicArray_iff {v : Variable} :
    v.IsDynamicArray ↔ Detector.dynamicArray.occursIn v.typeText.toList := by
  constructor
  · rintro ⟨front, gap, tail, htype, hgap, htail⟩
    rw [htype, occursIn]
    have htakes := ((takes_symbol (u := "[") (a := '[') rfl front _ []).append
      (takes_stretch hgap rfl _ [])).append (takes_symbol (u := "]") (a := ']') rfl _ tail [])
    exact isSome_findIn?_of_reads (htakes.reads.append (reads_atEnd_iff.2 ⟨htail, rfl, rfl⟩))
  · intro h
    obtain ⟨hit, hit'⟩ := Option.isSome_iff_exists.1 h
    obtain ⟨front, rest, htype, -, e₂, rs₂, ⟨e₁, rs₁, ⟨e, rs, hopen, hblanks⟩, hclose⟩, hend⟩ :=
      exists_reads_of_findIn? hit'
    obtain ⟨r, rfl, rfl, rfl⟩ := (reads_symbol_iff (u := "[") (a := '[') rfl).1 hopen
    obtain ⟨gap, r, rfl, hgap, rfl, rfl⟩ := reads_stretch_iff.1 hblanks
    obtain ⟨r, rfl, rfl, rfl⟩ := (reads_symbol_iff (u := "]") (a := ']') rfl).1 hclose
    exact ⟨front, gap, r, htype, hgap, (reads_atEnd_iff.1 hend).1⟩

instance (v : Variable) : Decidable v.IsDynamicArray :=
  decidable_of_iff _ Variable.isDynamicArray_iff.symm

namespace Detector

theorem mem_arrays_iff {c : Contract} {array : String} :
    array ∈ arrays c ↔ ∃ v ∈ c.stateVars, v.IsDynamicArray ∧ v.name = array := by
  simp only [arrays, List.mem_map, List.mem_filter, Variable.isDynamicArray_iff, and_assoc]

/-- The length of the array is mentioned in the text. -/
def MentionsLength (array text : List Char) : Prop :=
  ∃ front gap gap' rest,
    text = front ++ (array ++ (gap ++ '.' :: (gap' ++ ("length".toList ++ rest)))) ∧
    front.getLast?.any isWordChar ≠ array.head?.any isWordChar ∧ (∀ a ∈ gap, isBlank a) ∧
    (∀ a ∈ gap', isBlank a) ∧ rest.head?.any isWordChar = false

section Length

variable {array text rest gap : List Char} {names : List String}

theorem head?_append_gap (hgap : ∀ a ∈ gap, isBlank a) :
    (array ++ (gap ++ '.' :: rest)).head?.any isWordChar = array.head?.any isWordChar := by
  cases array with
  | nil =>
    rw [List.nil_append]
    exact head?_gap_append (fun a ha => isWordChar_of_isBlank ha) hgap rfl
  | cons a array => rfl

theorem isSome_findIn?_lengthOf {name : String} (hname : name ∈ names)
    (h : MentionsLength name.toList text) : ((lengthOf names).findIn? text).isSome := by
  obtain ⟨front, gap, gap', rest, rfl, hfront, hgap, hgap', hrest⟩ := h
  have hedge : (between front
      (name.toList ++ (gap ++ '.' :: (gap' ++ ("length".toList ++ rest))))).atWordEdge := by
    rw [atWordEdge, before_between, peek_between, head?_append_gap hgap]
    exact bne_iff_ne.2 hfront
  have harray : ∀ r, (oneOf (names.map Pattern.text)).Reads (between front (name.toList ++ r)) []
      (between (front ++ name.toList) r) [] :=
    fun r => reads_oneOf_iff.2 ⟨_, List.mem_map_of_mem hname, (takes_text name front r []).reads⟩
  refine isSome_findIn?_of_reads
    (((((((takes_check hedge []).reads.append ((harray _).named "array")).append
    (takes_stretch hgap rfl _ _).reads).append (takes_symbol rfl _ _ _).reads).append
    (takes_stretch hgap' rfl _ _).reads).append (takes_text "length" _ rest _).reads).append
    ⟨?_, rfl, rfl⟩)
  rw [atWordEdge, before_between, peek_between, getLast?_append_identifier _ (by decide), hrest]
  rfl

theorem mentionsLength_of_findIn? {hit : Hit} (h : (lengthOf names).findIn? text = some hit) :
    ∃ name ∈ names, hit.part "array" = name.toList ∧ MentionsLength name.toList text := by
  obtain ⟨front, rest, rfl, hstart, e₅, rs₅,
    ⟨e₄, rs₄, ⟨e₃, rs₃, ⟨e₂, rs₂, ⟨e₁, rs₁, ⟨e, rs, hedge, rs', harray,
    rfl⟩, hblanks⟩, hdot⟩, hblanks'⟩, hlength⟩, hbehind⟩ := exists_reads_of_findIn? h
  obtain ⟨hfront, rfl, rfl⟩ := hedge
  obtain ⟨p, hp, harray⟩ := reads_oneOf_iff.1 harray
  obtain ⟨name, hname, rfl⟩ := List.mem_map.1 hp
  obtain ⟨r, rfl, rfl, rfl⟩ := reads_text_iff.1 harray
  obtain ⟨gap, r, rfl, hgap, rfl, rfl⟩ := reads_stretch_iff.1 hblanks
  obtain ⟨r, rfl, rfl, rfl⟩ := (reads_symbol_iff (u := ".") (a := '.') rfl).1 hdot
  obtain ⟨gap', r, rfl, hgap', rfl, rfl⟩ := reads_stretch_iff.1 hblanks'
  obtain ⟨r, rfl, rfl, rfl⟩ := reads_text_iff.1 hlength
  have hrest := nonword_of_reads_edge (getLast?_append_identifier _ (by decide)) hbehind
  rw [atWordEdge, before_between, peek_between, head?_append_gap hgap, bne_iff_ne] at hfront
  refine ⟨name, hname, ?_, front, gap, gap', r, rfl, hfront, hgap, hgap', hrest⟩
  obtain ⟨-, -, hparts⟩ := hbehind
  rw [Hit.part, Hit.part?, hparts]
  simp

end Length

instance (array text : List Char) : Decidable (MentionsLength array text) :=
  decidable_of_iff ((lengthOf [String.ofList array]).findIn? text).isSome <| by
    constructor
    · intro h
      obtain ⟨hit, hit'⟩ := Option.isSome_iff_exists.1 h
      obtain ⟨name, hname, -, hmentions⟩ := mentionsLength_of_findIn? hit'
      rwa [List.mem_singleton.1 hname, String.toList_ofList] at hmentions
    · intro h
      exact isSome_findIn?_lengthOf (List.mem_singleton_self _) (by rwa [String.toList_ofList])

/-! ## Calls in the body -/

/-- The depth of the statement at an index. -/
def depthAt (ss : List Statement) (i : Nat) : Nat :=
  (ss[i]?.map (·.loopDepth)).getD 0

/-- The statement at `j` is an external call, and no statement between it and the header at `i`, nor
itself, is as shallow as the header. -/
def CallsWithin (ss : List Statement) (i j : Nat) : Prop :=
  i < j ∧ ss[j]?.any (·.isExternalCall) ∧ ∀ k ≤ j, i < k → depthAt ss i < depthAt ss k

instance (ss : List Statement) (i j : Nat) : Decidable (CallsWithin ss i j) :=
  inferInstanceAs (Decidable (_ ∧ _ ∧ _))

/-- How far a list goes on with elements that pass a test. -/
theorem lt_length_takeWhile_iff {α : Type} {p : α → Bool} : ∀ {xs : List α} {n : Nat},
    n < (xs.takeWhile p).length ↔ ∀ k ≤ n, xs[k]?.any p
  | [], n => iff_of_false (Nat.not_lt_zero n) fun h => by simpa using h 0 (Nat.zero_le n)
  | x :: xs, n => by
    cases hp : p x with
    | false =>
      rw [List.takeWhile_cons_of_neg (by simp [hp])]
      refine iff_of_false (Nat.not_lt_zero n) fun h => ?_
      simpa [hp] using h 0 (Nat.zero_le n)
    | true =>
      rw [List.takeWhile_cons_of_pos hp, List.length_cons]
      cases n with
      | zero => simp [hp]
      | succ n =>
        rw [Nat.add_lt_add_iff_right, lt_length_takeWhile_iff]
        constructor
        · intro h k hk
          cases k with
          | zero => exact hp
          | succ k => exact h k (Nat.le_of_succ_le_succ hk)
        · exact fun h k hk => h (k + 1) (Nat.succ_le_succ hk)

section Body

variable {ss : List Statement} {s : Statement} {i : Nat}

theorem lt_depthAt_iff {depth k : Nat} : depth < depthAt ss k ↔
    ss[k]?.any (depth < ·.loopDepth) := by
  rw [depthAt]
  cases ss[k]? <;> simp

/-- A call in the body of a loop is one at an index that belongs to it. -/
theorem callsWithin_iff (hs : ss[i]? = some s) {n : Nat} :
    CallsWithin ss i (i + 1 + n) ↔
      (ss.drop (i + 1))[n]?.any (·.isExternalCall) ∧
      n < (loopBody ss s.loopDepth (i + 1)).length := by
  have hdepth : depthAt ss i = s.loopDepth := by simp [depthAt, hs]
  rw [CallsWithin, loopBody, lt_length_takeWhile_iff, List.getElem?_drop, hdepth]
  refine ⟨fun h => ⟨h.2.1, fun k hk => ?_⟩, fun h => ⟨by omega, h.1, fun k hk hik => ?_⟩⟩
  · rw [List.getElem?_drop, ← lt_depthAt_iff]
    exact h.2.2 (i + 1 + k) (by omega) (by omega)
  · have hdeeper := h.2 (k - (i + 1)) (by omega)
    rwa [List.getElem?_drop, ← lt_depthAt_iff, Nat.add_sub_cancel' hik] at hdeeper

/-- The call that is looked up for a loop is the first one in its body. -/
theorem callInLoop?_cases (hs : ss[i]? = some s) :
    (∃ j call, callInLoop? ss s.loopDepth (i + 1) = some call ∧ ss[j]? = some call ∧
      CallsWithin ss i j ∧ ∀ j' < j, ¬CallsWithin ss i j') ∨
    callInLoop? ss s.loopDepth (i + 1) = none ∧ ∀ j, ¬CallsWithin ss i j := by
  have hfind : callInLoop? ss s.loopDepth (i + 1) = _ := find?_takeWhile (ss.drop (i + 1))
  have hfirst : ∀ j, CallsWithin ss i j →
      ∃ n, j = i + 1 + n ∧ (ss.drop (i + 1)).findIdx (·.isExternalCall) ≤ n ∧
        n < (loopBody ss s.loopDepth (i + 1)).length := by
    intro j hj
    obtain ⟨n, rfl⟩ := Nat.exists_eq_add_of_le (Nat.succ_le_of_lt hj.1)
    obtain ⟨hcall, hlt⟩ := (callsWithin_iff hs).1 hj
    refine ⟨n, rfl, Nat.le_of_not_lt fun hbefore => ?_, hlt⟩
    obtain ⟨call, hget, hexternal⟩ := (Option.any_eq_true _ _).1 hcall
    obtain ⟨hn, rfl⟩ := List.getElem?_eq_some_iff.1 hget
    exact Bool.false_ne_true ((List.not_of_lt_findIdx hbefore).symm.trans hexternal)
  by_cases hle : (loopBody ss s.loopDepth (i + 1)).length ≤
    (ss.drop (i + 1)).findIdx (·.isExternalCall)
  · refine Or.inr ⟨hfind.trans (if_pos hle), fun j hj => ?_⟩
    obtain ⟨n, -, hn, hlt⟩ := hfirst j hj
    omega
  · have hlt := Nat.lt_of_not_le hle
    have hlen := Nat.lt_of_lt_of_le hlt (List.takeWhile_sublist _).length_le
    have hget := List.getElem?_eq_getElem hlen
    refine Or.inl ⟨_, _, hfind.trans ((if_neg hle).trans hget), List.getElem?_drop.symm.trans hget,
      (callsWithin_iff hs).2 ⟨?_, hlt⟩, fun j hj hcalls => ?_⟩
    · rw [hget, Option.any_some]
      exact List.findIdx_getElem (p := Statement.isExternalCall)
    · obtain ⟨n, rfl, hn, -⟩ := hfirst j hcalls
      omega

end Body

end Detector

/-! ## Loops over arrays -/

/-- The statement heads a loop over the variable, which is a dynamic array. -/
def Statement.LoopsOver (s : Statement) (v : Variable) : Prop :=
  s.isControlFlow ∧ (∃ w ∈ ["for", "while"], Written.startsWithWord s.chars w) ∧ v.IsDynamicArray ∧
    Detector.MentionsLength v.name.toList s.chars

instance (s : Statement) (v : Variable) : Decidable (s.LoopsOver v) :=
  inferInstanceAs (Decidable (_ ∧ _ ∧ _ ∧ _))

namespace Block

/-- The statement at the index heads a loop over an array of the state with an external call in its
body. -/
def HasCallingLoop (b : Block) (i : Nat) : Prop :=
  b.isParsed ∧ (∃ c ∈ b.contract, ∃ s ∈ b.statements[i]?, ∃ v ∈ c.stateVars, s.LoopsOver v) ∧
    ∃ j < b.statements.length, Detector.CallsWithin b.statements i j

instance (b : Block) (i : Nat) : Decidable (b.HasCallingLoop i) :=
  inferInstanceAs (Decidable (_ ∧ _ ∧ _))

/-- The match is on the header at the index, and names the array and the line of the first call in
the body. -/
def MarksCallingLoop (source : Source) (b : Block) (i : Nat) (m : Match) : Prop :=
  ∃ c ∈ b.contract, ∃ s ∈ b.statements[i]?, ∃ v ∈ c.stateVars, s.LoopsOver v ∧
    ∃ j, ∃ call ∈ b.statements[j]?, Detector.CallsWithin b.statements i j ∧
      (∀ j' < j, ¬Detector.CallsWithin b.statements i j') ∧
      m = s.matched "unbounded-loop-external-call"
        (Detector.loopEvidence v.name (source.lineOf call.start))

end Block

namespace Detector

theorem isLoop_iff {s : Statement} :
    isLoop s ↔ s.isControlFlow ∧ ∃ w ∈ ["for", "while"], Written.startsWithWord s.chars w := by
  rw [isLoop, Bool.and_eq_true]
  exact and_congr_right fun _ => starts_words_iff ["for", "while"] (by decide)

section Header

variable {c : Contract} {s : Statement}

theorem loopsOver_of_findIn? {hit : Hit} (hloop : isLoop s)
    (h : (lengthOf (arrays c)).findIn? s.chars = some hit) :
    ∃ v ∈ c.stateVars, s.LoopsOver v ∧ String.ofList (hit.part "array") = v.name := by
  obtain ⟨name, hname, hpart, hmentions⟩ := mentionsLength_of_findIn? h
  obtain ⟨v, hv, harray, rfl⟩ := mem_arrays_iff.1 hname
  obtain ⟨hflow, hword⟩ := isLoop_iff.1 hloop
  exact ⟨v, hv, ⟨hflow, hword, harray, hmentions⟩, by rw [hpart, String.ofList_toList]⟩

theorem findIn?_of_loopsOver {v : Variable} (hv : v ∈ c.stateVars) (h : s.LoopsOver v) :
    isLoop s ∧ ∃ hit, (lengthOf (arrays c)).findIn? s.chars = some hit := by
  obtain ⟨hflow, hword, harray, hmentions⟩ := h
  have hname : v.name ∈ arrays c := mem_arrays_iff.2 ⟨v, hv, harray, rfl⟩
  exact ⟨isLoop_iff.2 ⟨hflow, hword⟩,
    Option.isSome_iff_exists.1 (isSome_findIn?_lengthOf hname hmentions)⟩

end Header

/-- The match on the statement at an index. -/
def callingLoopIn? (source : Source) (b : Block) (i : Nat) : Option Match :=
  b.contract.bind fun c => callingLoop? source (lengthOf (arrays c)) b.statements i

theorem callingLoop?_lengthOf_nil (source : Source) (ss : List Statement) (i : Nat) :
    callingLoop? source (lengthOf []) ss i = none := by
  have hnone : ∀ text, (lengthOf []).findIn? text = none := by
    intro text
    cases h : (lengthOf []).findIn? text with
    | none => rfl
    | some hit =>
      obtain ⟨name, hname, -⟩ := mentionsLength_of_findIn? h
      exact absurd hname List.not_mem_nil
  simp [callingLoop?, hnone]

theorem callingLoopIn?_of_contract {b : Block} {c : Contract} (hc : b.contract = some c)
    (source : Source) :
    callingLoopIn? source b = callingLoop? source (lengthOf (arrays c)) b.statements := by
  funext i
  rw [callingLoopIn?, hc, Option.bind_some]

/-- The statements of a member are asked about one after the other. -/
theorem asks_unboundedLoopExternalCall : unboundedLoopExternalCall.Asks callingLoopIn? := by
  intro source bs
  refine (eachParsed_pure _ source bs).trans (congrArg Except.ok ?_)
  congr 1
  funext b
  congr 1
  cases hc : b.contract with
  | none => simp [callingLoopIn?, hc]
  | some c =>
    simp only [callingLoopIn?_of_contract hc, loopMatches_eq, List.isEmpty_iff]
    split
    next hempty => simp [hempty, callingLoop?_lengthOf_nil]
    next => rfl

/-- A statement gives a match if it heads a loop over an array that calls out, and else none. -/
theorem callingLoopIn?_cases {b : Block} {i : Nat} (source : Source) (hb : b.isParsed)
    (hi : i < b.statements.length) :
    b.HasCallingLoop i ∧ (∃ m, callingLoopIn? source b i = some m ∧ b.MarksCallingLoop source i m) ∨
      ¬b.HasCallingLoop i ∧ callingLoopIn? source b i = none := by
  obtain ⟨s, hs⟩ : ∃ s, b.statements[i]? = some s := ⟨_, List.getElem?_eq_getElem hi⟩
  cases hask : callingLoopIn? source b i with
  | some m =>
    obtain ⟨c, hc, hm⟩ := Option.bind_eq_some_iff.1 hask
    rw [callingLoop?, hs, Option.bind_eq_bind, Option.bind_some] at hm
    split at hm
    next hloop =>
      obtain ⟨hit, hlength, hm⟩ := Option.bind_eq_some_iff.1 hm
      obtain ⟨call, hcall, hm⟩ := Option.bind_eq_some_iff.1 hm
      obtain ⟨v, hv, hover, hname⟩ := loopsOver_of_findIn? hloop hlength
      rcases callInLoop?_cases hs with ⟨j, call', hcall', hj, hwithin, hfirst⟩ | ⟨hnone, -⟩
      · obtain rfl := Option.some.inj (hcall.symm.trans hcall')
        have hlt := (List.getElem?_eq_some_iff.1 hj).1
        refine Or.inl ⟨⟨hb, ⟨c, hc, s, hs, v, hv, hover⟩, j, hlt, hwithin⟩, m, rfl, c, hc, s, hs, v,
          hv, hover, j, call, hj, hwithin, hfirst, ?_⟩
        rw [← hname]
        exact (Option.some.inj hm).symm
      · simp [hcall] at hnone
    next => simp at hm
  | none =>
    refine Or.inr ⟨?_, rfl⟩
    rintro ⟨-, ⟨c, hc, s', hs', v, hv, hover⟩, j, -, hwithin⟩
    obtain rfl := Option.some.inj (hs.symm.trans hs')
    obtain ⟨hloop, hit, hlength⟩ := findIn?_of_loopsOver hv hover
    rcases callInLoop?_cases hs with ⟨j', call, hcall, -⟩ | ⟨-, hnone⟩
    · rw [callingLoopIn?_of_contract hc] at hask
      simp [callingLoop?, hs, hloop, hlength, hcall] at hask
    · exact hnone j hwithin

/-- The loop rule marks, in order, just the headers of the loops over an array of the state that
call out. -/
theorem unboundedLoopExternalCall_finds (source : Source) (bs : List Block) :
    ∃ ms, unboundedLoopExternalCall source bs = .ok ms ∧
      List.Forall₂ (fun p m => p.1.MarksCallingLoop source p.2 m)
        ((Block.places bs).filter fun p => p.1.HasCallingLoop p.2) ms :=
  asks_unboundedLoopExternalCall.finds (fun _ _ h => h.1)
    (fun _ _ hb hi => callingLoopIn?_cases source hb hi) bs

end Detector

end ContractAudit
