import ContractAudit.Proofs.Contract.Layout
import ContractAudit.Proofs.Text.Gap

/-!
# Outlines behind a gap

The pass over a text takes the same steps behind a gap, at places further on : it ends statements
and headers where it did (`Body.statementEnd_behind`, `bodyMark?_behind`), splits bodies into the
same statements (`Body.statements_behind`) and adds the same contracts and members
(`Draft.add_behind`). The gap itself declares nothing. So the outline is the same, further on
(`Outline.of_append`).
-/

namespace ContractAudit

open Pattern

/-! ## Moved statements, contracts and members -/

/-- The statement `n` characters on. -/
def Statement.moved (n : Nat) (s : Statement) : Statement :=
  { s with start := n + s.start, stop := n + s.stop }

/-- The contract `n` characters on. -/
def Contract.moved (n : Nat) (c : Contract) : Contract :=
  { c with start := n + c.start, stop := n + c.stop }

/-- The member `n` characters on, with its contract and its statements. -/
def Block.moved (n : Nat) (b : Block) : Block :=
  { b with
    start := n + b.start
    stop := n + b.stop
    contract := b.contract.map (.moved n)
    body := b.body.map fun (lo, hi) => (n + lo, n + hi)
    statements := b.statements.map (.moved n) }

/-- The contracts and members `n` characters on. -/
def Outline.moved (n : Nat) (o : Outline) : Outline :=
  ⟨o.contracts.map (.moved n), o.blocks.map (.moved n)⟩

variable {gap text : List Char}

/-- The brackets are those behind a gap. -/
def Pairs.Behind (gap : List Char) (ps ps' : Pairs) : Prop :=
  ∀ i, ps'.close? (gap.length + i) = (ps.close? i).map (gap.length + ·)

/-- So are the brackets of the surroundings; the types are the same. -/
structure Surroundings.Behind (gap : List Char) (env env' : Surroundings) : Prop where
  braces : env.braces.Behind gap env'.braces
  parens : env.parens.Behind gap env'.parens
  valueTypes_eq : env'.valueTypes = env.valueTypes

/-! ## State variables -/

theorem stateVariablesFrom_behind {braces braces' : Pairs} (h : braces.Behind gap braces')
    (stop : Nat) : ∀ (fuel : Nat) (found : List Variable) (member c : Cursor),
    stateVariablesFrom braces' (gap.length + stop) found (member.behind gap) fuel (c.behind gap) =
      stateVariablesFrom braces stop found member fuel c
  | 0, _, _, _ => rfl
  | fuel + 1, found, member, c => by
    have ih := stateVariablesFrom_behind h stop fuel
    unfold stateVariablesFrom
    simp only [Cursor.offset_behind, Nat.add_lt_add_iff_left, Cursor.peek_behind, h c.offset,
      Cursor.advance_behind, Cursor.textTo_behind, ih]
    split
    · split
      · rfl
      · cases braces.close? c.offset with
        | none => rfl
        | some close =>
          simp only [Option.map_some, Nat.add_lt_add_iff_left, Nat.add_assoc,
            Cursor.advanceTo_behind, ih]
      · rfl
      · rfl
      · rfl
    · rfl

theorem stateVariables_behind {braces braces' : Pairs} (h : braces.Behind gap braces') (c : Cursor)
    (stop : Nat) :
    stateVariables braces' (c.behind gap) (gap.length + stop) = stateVariables braces c stop := by
  rw [stateVariables, Cursor.offset_behind, Nat.add_sub_add_left, stateVariablesFrom_behind h,
    stateVariables]

/-! ## Bodies -/

namespace Body

variable {env env' : Surroundings} (h : env.Behind gap env') (hgap : ∀ a ∈ gap, isBlank a)

theorem steady_callOptions : callOptions.Steady gap := by
  simp [callOptions, blanks]

include hgap in
theorem steady_controlWord : controlWord.Steady gap := by
  simp [controlWord, steady_edge hgap]

include hgap in
theorem steady_assemblyWord : assemblyWord.Steady gap := by
  simp [assemblyWord, steady_edge hgap]

include h in
theorem statementEnd_behind (stop : Nat) : ∀ (fuel : Nat) (c : Cursor),
    statementEnd env' (gap.length + stop) fuel (c.behind gap) =
      ((statementEnd env stop fuel c).1.behind gap, (statementEnd env stop fuel c).2)
  | 0, _ => rfl
  | fuel + 1, c => by
    have ih := statementEnd_behind stop fuel
    unfold statementEnd
    simp only [Cursor.offset_behind, Nat.add_lt_add_iff_left, Cursor.peek_behind, h.parens c.offset,
      h.braces c.offset, at?_behind steady_callOptions, Option.isSome_map, Cursor.advance_behind,
      Cursor.advanceTo_behind, ih]
    split
    · split
      · rfl
      · rfl
      · rfl
      · cases env.parens.close? c.offset with
        | none => rfl
        | some k =>
          by_cases hk : k < stop
          · simp only [Option.map_some, Nat.add_lt_add_iff_left, hk, if_true, Nat.add_assoc,
              Cursor.advanceTo_behind, ih]
          · simp only [Option.map_some, Nat.add_lt_add_iff_left, hk, if_false]
      · split
        · cases env.braces.close? c.offset with
          | none => rfl
          | some k =>
            by_cases hk : k < stop
            · simp only [Option.map_some, Nat.add_lt_add_iff_left, hk, if_true, Nat.add_assoc,
                Cursor.advanceTo_behind, ih]
            · simp only [Option.map_some, Nat.add_lt_add_iff_left, hk, if_false]
        · rfl
      · rfl
    · rfl

theorem statement_behind (kind : StatementKind) (c d : Cursor) (depth : Nat)
    (target : Option String) :
    statement kind (c.behind gap) (d.behind gap) depth target =
      (statement kind c d depth target).moved gap.length := by
  simp only [statement, Statement.moved, Cursor.textTo_behind, Cursor.offset_behind, Nat.add_assoc]

include h in
theorem headerEnd_behind (stop : Nat) (hit : Hit) :
    headerEnd env' (gap.length + stop) (hit.behind gap) = (headerEnd env stop hit).behind gap := by
  unfold headerEnd
  simp only [Hit.stop_behind, Cursor.skipBlanks_behind, Cursor.offset_behind, Cursor.peek_behind,
    Nat.add_lt_add_iff_left, h.parens hit.stop.skipBlanks.offset]
  split
  · cases env.parens.close? hit.stop.skipBlanks.offset with
    | none => rfl
    | some close =>
      simp only [Option.map_some, Nat.add_lt_add_iff_left, Nat.add_assoc, Cursor.advanceTo_behind]
      split <;> rfl
  · rfl

end Body

/-- The splitting of a body behind a gap has found the same statements. -/
def Splitting.moved (n : Nat) (s : Splitting) : Splitting :=
  { s with found := s.found.map (.moved n) }

namespace Body

variable {env env' : Surroundings} (h : env.Behind gap env') (hgap : ∀ a ∈ gap, isBlank a)

include h in
theorem Step.header_behind (stop : Nat) (hit : Hit) (s : Splitting) :
    header env' (gap.length + stop) (hit.behind gap) (s.moved gap.length) =
      ((header env stop hit s).1.moved gap.length, (header env stop hit s).2.behind gap) := by
  simp only [header, headerEnd_behind h, Hit.part_behind, Hit.start_behind, Cursor.textTo_behind,
    statement_behind, Splitting.moved, List.map_cons]

include h in
theorem Step.assembly_behind {stop : Nat} (hstop : 0 < stop) (c brace : Cursor) (s : Splitting) :
    assembly env' (gap.length + stop) (c.behind gap) (brace.behind gap) (s.moved gap.length) =
      ((assembly env stop c brace s).1.moved gap.length,
        (assembly env stop c brace s).2.behind gap) := by
  have hsub : gap.length + stop - 1 = gap.length + (stop - 1) := Nat.add_sub_assoc hstop _
  simp only [assembly, Cursor.offset_behind, h.braces brace.offset, hsub]
  cases env.braces.close? brace.offset with
  | none =>
    simp only [Option.map_none, Nat.add_assoc, Cursor.advanceTo_behind, Cursor.textTo_behind,
      statement_behind, Splitting.moved, List.map_cons]
  | some k =>
    by_cases hk : k < stop
    · simp only [Option.map_some, Nat.add_lt_add_iff_left, hk, if_true, Nat.add_assoc,
        Cursor.advanceTo_behind, Cursor.textTo_behind, statement_behind, Splitting.moved,
        List.map_cons]
    · simp only [Option.map_some, Nat.add_lt_add_iff_left, hk, if_false, Nat.add_assoc,
        Cursor.advanceTo_behind, Cursor.textTo_behind, statement_behind, Splitting.moved,
        List.map_cons]

theorem Step.plain_behind (c d : Cursor) (s : Splitting) :
    plain (c.behind gap) (d.behind gap) (s.moved gap.length) = (plain c d s).moved gap.length := by
  simp only [plain, Cursor.textTo_behind, statement_behind, Splitting.moved, List.map_cons]

include h hgap in
theorem split_behind (stop : Nat) : ∀ (fuel : Nat) (s : Splitting) (c : Cursor),
    split env' (gap.length + stop) fuel (s.moved gap.length) (c.behind gap) =
      (split env stop fuel s c).moved gap.length
  | 0, _, _ => rfl
  | fuel + 1, s, c => by
    have ih := split_behind stop fuel
    unfold split
    simp only [Cursor.skipBlanks_behind]
    generalize c.skipBlanks = c
    simp only [Cursor.offset_behind, Nat.add_lt_add_iff_left, Cursor.peek_behind,
      Cursor.advance_behind, at?_behind (steady_controlWord hgap),
      at?_behind (steady_assemblyWord hgap), Option.isSome_map, Nat.add_sub_add_left,
      statementEnd_behind h, Step.plain_behind]
    split
    next hlt =>
      split
      · rfl
      · exact ih
          { s with frames := s.pending :: s.frames, depth := s.depth + s.pending, pending := 0 } _
      · obtain ⟨scope, frames, depth, pending, found⟩ := s
        cases frames with
        | nil => exact ih ⟨scope, [], depth, pending, found⟩ _
        | cons loops frames => exact ih ⟨scope, frames, depth - loops, pending, found⟩ _
      · exact ih { s with pending := 0 } _
      · cases controlWord.at? c with
        | some hit =>
          simp only [Option.map_some, Hit.part_behind, Hit.stop_behind, Step.header_behind h]
          split
          · exact ih s _
          · split
            · exact ih { s with pending := s.pending + 1 } _
            · exact ih _ _
        | none =>
          generalize statementEnd env stop (stop - c.offset) c = r
          obtain ⟨d, ending⟩ := r
          simp only [Option.map_none, Step.assembly_behind h (Nat.zero_lt_of_lt hlt)]
          split
          · exact ih _ _
          · split
            · exact ih { Step.plain c d s with pending := 0 } _
            · exact ih { Step.plain c d s with pending := 0 } _
            · exact ih _ _
            · rfl
    next => rfl

include h hgap in
theorem statements_behind (scope : Scope) (c : Cursor) (stop : Nat) :
    statements env' scope (c.behind gap) (gap.length + stop) =
      (statements env scope c stop).map (.moved gap.length) := by
  have hsplit := split_behind h hgap stop (stop - c.offset) ⟨scope, [], 0, 0, []⟩ c
  rw [statements, Cursor.offset_behind, Nat.add_sub_add_left, statements, List.map_reverse]
  exact congrArg (fun s => s.found.reverse) hsplit

end Body

/-! ## Headers -/

theorem bodyMarkFrom?_behind {parens parens' : Pairs} (h : parens.Behind gap parens')
    (limit : Nat) : ∀ (fuel : Nat) (c : Cursor),
    bodyMarkFrom? parens' (gap.length + limit) fuel (c.behind gap) =
      (bodyMarkFrom? parens limit fuel c).map fun (d, a) => (d.behind gap, a)
  | 0, _ => rfl
  | fuel + 1, c => by
    have ih := bodyMarkFrom?_behind h limit fuel
    unfold bodyMarkFrom?
    simp only [Cursor.offset_behind, Nat.add_lt_add_iff_left, Cursor.peek_behind, h c.offset,
      Cursor.advance_behind, ih]
    split
    · split
      · rfl
      · cases parens.close? c.offset with
        | none => rfl
        | some close =>
          simp only [Option.map_some, Nat.add_lt_add_iff_left, Nat.add_assoc,
            Cursor.advanceTo_behind, ih]
          split <;> rfl
      · split <;> rfl
    · rfl

theorem bodyMark?_behind {parens parens' : Pairs} (h : parens.Behind gap parens') (c : Cursor) :
    bodyMark? parens' (c.behind gap) =
      (bodyMark? parens c).map fun (d, a) => (d.behind gap, a) := by
  rw [bodyMark?, Cursor.offset_behind, Nat.add_assoc, bodyMarkFrom?_behind h, bodyMark?]

section Steady

variable (hgap : ∀ a ∈ gap, isBlank a)

include hgap

theorem steady_declaration : declaration.Steady gap := by
  simp [declaration, contractWord, memberWord, blanks1, stretch1, ident, steady_edge hgap]

theorem steady_nestedDeclaration : nestedDeclaration.Steady gap := by
  simp [nestedDeclaration, blanks, blanks1, stretch1, ident, steady_edge hgap]

theorem steady_valueTypeDeclaration : valueTypeDeclaration.Steady gap := by
  simp [valueTypeDeclaration, blanks1, stretch1, ident, steady_edge hgap]

end Steady

theorem opens_valueTypeDeclaration : valueTypeDeclaration.Opens (!isBlank ·) := by
  refine opens_oneOf fun p hp => ?_
  simp only [List.mem_cons, List.not_mem_nil, or_false] at hp
  rcases hp with rfl | rfl
  · have hword : (oneOf ["struct", "enum"]).Opens (!isBlank ·) :=
      opens_oneOf (by simpa using ⟨opens_text rfl rfl, opens_text rfl rfl⟩)
    exact ((hword.check_append _).append _).append _
  · exact ((((((opens_text rfl rfl).check_append _).append _).append _).append _).append _).append _

theorem valueTypes_append (hgap : ∀ a ∈ gap, isBlank a) (text : List Char) :
    valueTypes (gap ++ text) = valueTypes text := by
  rw [valueTypes, allIn_append hgap opens_valueTypeDeclaration (steady_valueTypeDeclaration hgap),
    List.map_map]
  simp only [Function.comp_def, Hit.part_behind, valueTypes]

/-! ## The pass over the source -/

namespace Draft

/-- The draft of contracts and members `n` characters on. -/
def moved (n : Nat) (d : Draft) : Draft :=
  ⟨d.contracts.map (.moved n), d.around.map (.moved n), d.blocks.map (.moved n)⟩

variable {env env' : Surroundings} (h : env.Behind gap env') (hgap : ∀ a ∈ gap, isBlank a)

theorem openAt_moved (n offset : Nat) : ∀ cs : List Contract,
    openAt (n + offset) (cs.map (.moved n)) = (openAt offset cs).map (.moved n)
  | [] => rfl
  | c :: cs => by
    simp only [List.map_cons, openAt, openAt_moved n offset cs, Contract.moved,
      Nat.add_le_add_iff_left]
    split <;> rfl

theorem asMember_moved (n : Nat) (contract : Option Contract) (header : Header) :
    asMember (contract.map (.moved n)) header = asMember contract header := by
  cases contract <;> rfl

include h in
theorem addContract_behind (length : Nat) (hit : Hit) (d : Draft) :
    (d.moved gap.length).addContract env' (gap.length + length) (hit.behind gap) =
      ((d.addContract env length hit).1.moved gap.length,
        (d.addContract env length hit).2.behind gap) := by
  unfold addContract
  rw [Hit.stop_behind, bodyMark?_behind h.parens]
  cases bodyMark? env.parens hit.stop with
  | none => rfl
  | some mark =>
    obtain ⟨brace, a⟩ := mark
    by_cases ha : a = '{'
    · subst ha
      simp only [Option.map_some, Cursor.offset_behind, h.braces brace.offset, Hit.part_behind,
        Hit.start_behind, Cursor.textTo_behind, Cursor.advance_behind]
      cases env.braces.close? brace.offset with
      | none =>
        simp only [Option.map_none, Option.getD_none, stateVariables_behind h.braces]
        rfl
      | some k =>
        simp only [Option.map_some, Option.getD_some, stateVariables_behind h.braces]
        rfl
    · split
      · simp_all
      · split
        · simp_all
        · rfl

include hgap in
theorem bareHeaderEnd_behind (length : Nat) (hit : Hit) :
    bareHeaderEnd (gap.length + length) (hit.behind gap) =
      gap.length + bareHeaderEnd length hit := by
  have hfind : ∀ window : List Char, declaration.find?
      ⟨gap.length + hit.stop.offset, hit.stop.before.or gap.getLast?, window⟩ =
        (declaration.find? ⟨hit.stop.offset, hit.stop.before, window⟩).map (.behind gap) :=
    fun window => find?_behind (steady_declaration hgap) ⟨_, _, window⟩
  unfold bareHeaderEnd
  simp only [Hit.start_behind, Hit.stop_behind, Cursor.offset_behind, Cursor.before_behind,
    Cursor.rest_behind, Nat.add_assoc, Nat.add_min_add_left, Nat.add_sub_add_left, hfind]
  cases declaration.find? _ <;> rfl

include h hgap in
theorem addMember_behind (length : Nat) (kind : BlockKind) (hit : Hit) (d : Draft) :
    (d.moved gap.length).addMember env' (gap.length + length) kind (hit.behind gap) =
      ((d.addMember env length kind hit).1.moved gap.length,
        (d.addMember env length kind hit).2.behind gap) := by
  have haround : openAt (gap.length + hit.start.offset) (d.moved gap.length).around =
      (openAt hit.start.offset d.around).map (.moved gap.length) := openAt_moved ..
  unfold addMember
  simp only [Hit.stop_behind, Hit.start_behind, Cursor.offset_behind, Cursor.rest_behind, haround,
    bodyMark?_behind h.parens, List.head?_map, asMember_moved, bareHeaderEnd_behind hgap]
  generalize openAt hit.start.offset d.around = around
  cases bodyMark? env.parens hit.stop with
  | none =>
    simp only [Option.map_none, Option.any_none, Nat.add_sub_add_left]
    rfl
  | some mark =>
    obtain ⟨brace, a⟩ := mark
    simp only [Option.map_some, Option.any_some, Cursor.offset_behind, Nat.add_sub_add_left,
      Cursor.advance_behind]
    split
    · rfl
    · by_cases ha : a = '{'
      · subst ha
        simp only [Cursor.offset_behind, h.braces brace.offset, Cursor.advance_behind]
        cases env.braces.close? brace.offset with
        | none =>
          simp only [Option.map_none, Option.getD_none, Nat.add_sub_add_left,
            findBefore?_behind (steady_nestedDeclaration hgap)]
          cases nestedDeclaration.findBefore? _ _ <;> rfl
        | some close =>
          simp only [Option.map_some, Option.getD_some, Nat.add_sub_add_left,
            findBefore?_behind (steady_nestedDeclaration hgap)]
          cases nestedDeclaration.findBefore? _ _ with
          | some nested => rfl
          | none =>
            simp only [Option.map_none, h.valueTypes_eq, Body.statements_behind h hgap,
              Nat.add_assoc, Cursor.advanceTo_behind]
            cases around.head? <;> rfl
      · split
        · simp_all
        · split
          · simp_all
          · rfl

include h hgap in
theorem add_behind (length : Nat) (hit : Hit) (d : Draft) :
    (d.moved gap.length).add env' (gap.length + length) (hit.behind gap) =
      ((d.add env length hit).1.moved gap.length, (d.add env length hit).2.behind gap) := by
  unfold add
  simp only [Hit.part?_behind, Hit.part_behind, Hit.stop_behind, Cursor.rest_behind,
    addContract_behind h, addMember_behind h hgap]
  split
  · rfl
  · split
    · rfl
    · split <;> rfl

include h hgap in
theorem addAll_behind (length : Nat) : ∀ (fuel : Nat) (d : Draft) (c : Cursor),
    addAll env' (gap.length + length) fuel (d.moved gap.length) (c.behind gap) =
      (addAll env length fuel d c).moved gap.length
  | 0, _, _ => rfl
  | fuel + 1, d, c => by
    unfold addAll
    rw [find?_behind (steady_declaration hgap)]
    cases declaration.find? c with
    | none => rfl
    | some hit =>
      simp only [Option.map_some, add_behind h hgap]
      exact addAll_behind length fuel _ _

/-- How many rounds the pass may take does not matter, if it may take enough. -/
theorem addAll_eq (henv : env.OfText text) (length : Nat) : ∀ (fuel fuel' : Nat) (d : Draft)
    (c : Cursor), c.In text → text.length ≤ c.offset + fuel → text.length ≤ c.offset + fuel' →
      addAll env length fuel d c = addAll env length fuel' d c
  | 0, 0, _, _, _, _, _ => rfl
  | 0, _ + 1, _, _, hc, hle, _ => by
    rw [addAll, addAll, opens_declaration.find?_eq_none hc hle]
  | _ + 1, 0, _, _, hc, _, hle => by
    rw [addAll, addAll, opens_declaration.find?_eq_none hc hle]
  | fuel + 1, fuel' + 1, d, c, hc, hle, hle' => by
    unfold addAll
    cases hfind : declaration.find? c with
    | none => rfl
    | some hit =>
      obtain ⟨hstart, hge, hreads⟩ := reads_of_find? hc hfind
      have hlt := (opens_declaration text _ _ _ _ hstart hreads).2
      have hext := extends_add henv (hreads.in hstart).1 length d
      have hnext := hext.le
      have hlater := addAll_eq henv length fuel fuel' (d.add env length hit).1 _ hext.in_text
        (by omega) (by omega)
      exact hlater

end Draft

/-- The outline of a text behind a gap is the outline of the text, moved by the length of the
gap. -/
theorem Outline.of_append (hgap : ∀ a ∈ gap, isBlank a) (text : List Char) :
    Outline.of (gap ++ text) = (Outline.of text).moved gap.length := by
  have henv : Surroundings.Behind gap
      ⟨Pairs.braces text, Pairs.parens text, valueTypes text⟩
      ⟨Pairs.braces (gap ++ text), Pairs.parens (gap ++ text), valueTypes (gap ++ text)⟩ :=
    ⟨Pairs.close?_append rfl rfl hgap text, Pairs.close?_append rfl rfl hgap text,
      valueTypes_append hgap text⟩
  have hstart : ∀ (env : Surroundings) (length fuel : Nat) (d : Draft),
      d.addAll env length fuel (.start (gap ++ text)) =
        d.addAll env length fuel ((Cursor.start text).behind gap) := by
    intro env length fuel d
    cases fuel with
    | zero => rfl
    | succ fuel => rw [Draft.addAll, find?_start_append hgap opens_declaration, Draft.addAll]
  have hfuel : text.length ≤ (Cursor.start text).offset + (gap.length + text.length) := by omega
  have hpass := Draft.addAll_behind henv hgap text.length (gap.length + text.length) ⟨[], [], []⟩
    (.start text)
  rw [Draft.addAll_eq ⟨rfl, rfl⟩ text.length _ text.length _ _ (Cursor.in_start text) hfuel
    (by omega)] at hpass
  simp only [Outline.of, hstart, List.length_append]
  rw [show Draft.addAll _ _ _ ⟨[], [], []⟩ _ = _ from hpass]
  simp only [Draft.moved, moved, List.map_reverse]

end ContractAudit
