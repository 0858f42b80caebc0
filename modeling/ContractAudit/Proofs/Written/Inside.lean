import ContractAudit.Proofs.Written.Body

/-!
# Inside a written contract

The braces of written texts are balanced, and no declaration stands between the variables or the
statements. The search for state variables runs over the inside of a contract from semicolon to
semicolon and jumps over the bodies of members, so it finds the written variables and no others
(`Contract.stateVariables_inside`).
-/

namespace ContractAudit

namespace Written

open Pattern Cursor

/-! ## Balanced braces -/

theorem level_of_isHeaderChar {cs : List Char} (h : ∀ a ∈ cs, isHeaderChar a) :
    level '{' '}' 0 cs = some 0 :=
  level_of_not_mem (fun hmem => absurd (h _ hmem) (by decide))
    (fun hmem => absurd (h _ hmem) (by decide)) 0

theorem level_of_isBlank {cs : List Char} (h : ∀ a ∈ cs, isBlank a) : level '{' '}' 0 cs = some 0 :=
  level_of_isHeaderChar fun a ha => isHeaderChar_of_isBlank (h a ha)

theorem Variable.isHeaderChar_of_mem (v : Variable) : ∀ a ∈ v.chars, isHeaderChar a := by
  simp only [chars, List.forall_mem_append, List.forall_mem_cons]
  exact ⟨v.type.even_chars.chars, by decide, v.name.isHeaderChar_of_mem⟩

theorem level_bodyChars (layout : Layout) (ss : List Statement) :
    level '{' '}' 0 (bodyChars layout ss) = some 0 := by
  have hadd := additive_level '{' '}'
  refine hadd.flatMap fun s _ => hadd.append (level_of_isBlank layout.isBlank_statement) ?_
  exact hadd.append s.level_braces (by decide)

namespace Member

variable (m : Member) (layout : Layout)

theorem level_inside : level '{' '}' 0 (m.inside layout) = some 0 :=
  (additive_level '{' '}').append (level_bodyChars layout m.body)
    (level_of_isBlank layout.isBlank_member)

theorem isHeaderChar_of_mem_head : ∀ a ∈ m.head, isHeaderChar a := by
  refine List.forall_mem_append.2 ⟨?_, m.isHeaderChar_of_mem_signature⟩
  rw [keyword]
  cases m.role.kind <;> decide

theorem level_braces : level '{' '}' 0 (m.chars layout) = some 0 := by
  rw [chars, level_append_balanced (level_of_isHeaderChar m.isHeaderChar_of_mem_head),
    level_group (by decide) (m.level_inside layout)]
  rfl

end Member

theorem level_variablesChars (layout : Layout) (vs : List Variable) :
    level '{' '}' 0 (variablesChars layout vs) = some 0 := by
  have hadd := additive_level '{' '}'
  exact hadd.flatMap fun v _ => hadd.append (level_of_isBlank layout.isBlank_member)
    (hadd.append (level_of_isHeaderChar v.isHeaderChar_of_mem) (by decide))

theorem level_membersChars (layout : Layout) (ms : List Member) :
    level '{' '}' 0 (membersChars layout ms) = some 0 := by
  have hadd := additive_level '{' '}'
  exact hadd.flatMap fun m _ =>
    hadd.append (level_of_isBlank layout.isBlank_member) (m.level_braces layout)

theorem Contract.level_inside (c : Contract) (layout : Layout) :
    level '{' '}' 0 (c.inside layout) = some 0 := by
  have hadd := additive_level '{' '}'
  exact hadd.append (level_variablesChars layout c.stateVars) (hadd.append
    (level_membersChars layout c.members) (level_of_isBlank layout.isBlank_foot))

/-! ## No declarations -/

theorem quiet_bodyChars (layout : Layout) (ss : List Statement) : Quiet (bodyChars layout ss) := by
  have hadd := additive_quiet
  refine hadd.flatMap fun s _ => hadd.append (quiet_of_blanks layout.isBlank_statement) ?_
  exact s.declares.quiet (by decide) (by decide)

theorem quiet_variables (layout : Layout) (vs : List Variable) :
    Quiet (variablesChars layout vs) := by
  have hadd := additive_quiet
  refine hadd.flatMap fun v _ => hadd.append (quiet_of_blanks layout.isBlank_member) ?_
  exact v.unreserved_chars.of_declarationWords.quiet (by decide) (by decide)

/-- The text may stand in front of any text that lacks the words. -/
def Spares (ws : List String) (cs : List Char) : Prop :=
  ∀ ds, Lacks ws ds → Lacks ws (cs ++ ds)

section Spares

variable {ws : List String} {cs : List Char}

theorem additive_spares (ws : List String) : Additive (Spares ws) where
  nil _ hds := hds
  append {cs ds} hcs hds es hes := by
    rw [List.append_assoc]
    exact hcs _ (hds _ hes)

theorem Lacks.spares (h : Lacks ws cs) {a : Char} (ha : isWordChar a = false) :
    Spares ws (cs ++ [a]) := by
  intro ds hds
  rw [List.append_assoc, List.singleton_append, lacks_append_cons ha]
  exact ⟨h, hds⟩

theorem Spares.lacks (h : Spares ws cs) (hws : "" ∉ ws) : Lacks ws cs := by
  have hnil := h [] (lacks_nil hws)
  rwa [List.append_nil] at hnil

theorem spares_of_blanks (hws : "" ∉ ws) :
    ∀ {gap : List Char}, (∀ a ∈ gap, isBlank a) → Spares ws gap
  | [], _ => (additive_spares ws).nil
  | a :: _, hgap =>
    (additive_spares ws).append
      ((lacks_nil hws).spares (isWordChar_of_isBlank (hgap a List.mem_cons_self)))
      (spares_of_blanks hws fun b hb => hgap b (List.mem_cons_of_mem a hb))

end Spares

/-- No word of a body opens a declaration that is recognised there. -/
theorem Member.spares_inside (m : Member) (layout : Layout) :
    Spares nestedWords (m.inside layout) := by
  have hadd := additive_spares nestedWords
  refine hadd.append (hadd.flatMap fun s _ => hadd.append ?_ ?_) ?_
  · exact spares_of_blanks (by decide) layout.isBlank_statement
  · exact s.declares.of_nestedWords.spares (by decide)
  · exact spares_of_blanks (by decide) layout.isBlank_member

/-! ## No words that go on -/

theorem settled_bodyChars (layout : Layout) (ss : List Statement) :
    Settled (bodyChars layout ss) := by
  have hadd := additive_settled
  refine hadd.flatMap fun s _ => hadd.append (settled_of_blanks layout.isBlank_statement) ?_
  exact settled_concat (by decide) s.chars

theorem settled_variables (layout : Layout) (vs : List Variable) :
    Settled (variablesChars layout vs) := by
  have hadd := additive_settled
  refine hadd.flatMap fun v _ => hadd.append (settled_of_blanks layout.isBlank_member) ?_
  exact settled_concat (by decide) v.chars

/-- A text in braces ends with its brace. -/
theorem settled_braced (head inside : List Char) : Settled (head ++ '{' :: (inside ++ ['}'])) := by
  have hassoc : head ++ '{' :: (inside ++ ['}']) = head ++ '{' :: inside ++ ['}'] := by simp
  rw [hassoc]
  exact settled_concat (by decide) _

theorem settled_members (layout : Layout) (ms : List Member) :
    Settled (membersChars layout ms) := by
  have hadd := additive_settled
  refine hadd.flatMap fun m _ => hadd.append (settled_of_blanks layout.isBlank_member) ?_
  exact settled_braced m.head (m.inside layout)

/-! ## State variables -/

section StateVariables

variable {braces : Pairs} {stop : Nat} {front rest w gap : List Char}
    {found : List ContractAudit.Variable}

theorem stateVariablesFrom_char {a : Char} (ha : isHeaderChar a) (member : Cursor) (fuel : Nat)
    (hstop : front.length < stop) :
    stateVariablesFrom braces stop found member (fuel + 1) (between front (a :: rest)) =
      stateVariablesFrom braces stop found member fuel (between (front ++ [a]) rest) := by
  have hopen : a ≠ '{' := ne_of_isHeaderChar ha (by decide)
  have hclose : a ≠ '}' := ne_of_isHeaderChar ha (by decide)
  have hmark : a ≠ ';' := ne_of_isHeaderChar ha (by decide)
  have hlt : (between front (a :: rest)).offset < stop := hstop
  rw [stateVariablesFrom, if_pos hlt]
  split
  next h => simp at h
  next h => simp [hopen] at h
  next h => simp [hmark] at h
  next h => simp [hclose] at h
  next => rw [advance_one_between]

theorem glides_stateVariablesFrom (hw : ∀ a ∈ w, isHeaderChar a) (member : Cursor)
    (hstop : front.length + w.length ≤ stop) :
    Glides (stateVariablesFrom braces stop found member)
      (stateVariablesFrom braces stop found member) front w rest :=
  glides_of_forall (fun _ _ _ _ hlimit ha fuel =>
    stateVariablesFrom_char ha member fuel hlimit) hw rfl hstop

/-- The search for state variables at the start of a member. -/
def variablesFrom (braces : Pairs) (stop : Nat) (found : List ContractAudit.Variable) (fuel : Nat)
    (c : Cursor) : List ContractAudit.Variable :=
  stateVariablesFrom braces stop found c fuel c

/-- The member at a place begins there. -/
theorem glides_variablesFrom {g : Nat → Cursor → List ContractAudit.Variable}
    (h : Glides (stateVariablesFrom braces stop found (between front (w ++ rest))) g front w rest) :
    Glides (variablesFrom braces stop found) g front w rest :=
  h

theorem glides_variable (v : Variable) (hgap : ∀ a ∈ gap, isBlank a)
    (hstop : front.length + (gap ++ (v.chars ++ [';'])).length ≤ stop) :
    Glides (variablesFrom braces stop found) (variablesFrom braces stop (v.record :: found)) front
      (gap ++ (v.chars ++ [';'])) rest := by
  have hchars : ∀ a ∈ gap ++ v.chars, isHeaderChar a :=
    List.forall_mem_append.2 ⟨fun a ha => isHeaderChar_of_isBlank (hgap a ha),
      v.isHeaderChar_of_mem⟩
  rw [← List.append_assoc] at hstop ⊢
  obtain ⟨member, hmember⟩ : ∃ member, member = between front (gap ++ v.chars ++ [';'] ++ rest) :=
    ⟨_, rfl⟩
  have hlt : (between (front ++ (gap ++ v.chars)) (';' :: rest)).offset < stop := by
    rw [offset_between, List.length_append]
    rw [List.length_append, List.length_singleton] at hstop
    omega
  have hround : Glides (stateVariablesFrom braces stop found member)
      (variablesFrom braces stop (v.record :: found)) (front ++ (gap ++ v.chars)) [';'] rest := by
    refine glides_of_round (by simp) fun fuel => ?_
    have hvariable :
        stateVariable? (member.textTo (between (front ++ (gap ++ v.chars)) (';' :: rest))) =
        some v.record := by
      rw [hmember, List.append_assoc, List.singleton_append, textTo_between]
      exact v.stateVariable?_chars hgap
    rw [List.singleton_append, stateVariablesFrom, if_pos hlt]
    simp only [peek_between, List.head?_cons, hvariable, advance_one_between, variablesFrom]
  refine glides_variablesFrom (hmember ▸ ?_)
  exact (glides_stateVariablesFrom hchars member
    (by rw [List.length_append] at hstop; omega)).append
    hround

/-- The members of a contract are jumped over. -/
theorem glides_member (m : Member) (layout : Layout)
    (hbraces : braces = Pairs.braces (front ++ (layout.member ++ m.chars layout ++ rest)))
    (hstop : front.length + (layout.member ++ m.chars layout).length ≤ stop) :
    Glides (variablesFrom braces stop found) (variablesFrom braces stop found) front
      (layout.member ++ m.chars layout) rest := by
  obtain ⟨head, hhead⟩ : ∃ head, head = layout.member ++ m.head := ⟨_, rfl⟩
  have hchars : layout.member ++ m.chars layout = head ++ '{' :: (m.inside layout ++ ['}']) := by
    rw [hhead, Member.chars, List.append_assoc]
  have hheader : ∀ a ∈ head, isHeaderChar a := by
    rw [hhead]
    exact List.forall_mem_append.2 ⟨fun a ha =>
      isHeaderChar_of_isBlank (layout.isBlank_member a ha), m.isHeaderChar_of_mem_head⟩
  rw [hchars] at hbraces hstop ⊢
  obtain ⟨member, hmember⟩ : ∃ member, member =
      between front (head ++ '{' :: (m.inside layout ++ ['}']) ++ rest) := ⟨_, rfl⟩
  have hlt : (front ++ head).length + 1 + (m.inside layout).length < stop := by
    simp only [List.length_append, List.length_cons, List.length_nil] at hstop ⊢
    omega
  have hjump : Glides (stateVariablesFrom braces stop found member)
      (variablesFrom braces stop found)
      (front ++ head) ('{' :: (m.inside layout ++ ['}'])) rest := by
    refine glides_of_round (by simp) fun fuel => ?_
    have hclose : braces.close? (front ++ head).length =
        some ((front ++ head).length + 1 + (m.inside layout).length) := by
      have htext : front ++ (head ++ '{' :: (m.inside layout ++ ['}']) ++ rest) =
          front ++ head ++ '{' :: (m.inside layout ++ '}' :: rest) := by simp
      rw [hbraces, htext]
      exact Pairs.close?_of_level (by decide) (m.level_inside layout)
    rw [List.cons_append, List.append_assoc, List.singleton_append, stateVariablesFrom,
      if_pos (by rw [offset_between]; omega)]
    simp only [peek_between, List.head?_cons, offset_between, hclose, if_pos hlt, advanceTo_group,
      variablesFrom]
  refine glides_variablesFrom (hmember ▸ ?_)
  exact (glides_stateVariablesFrom hheader member (by rw [List.length_append] at hlt; omega)).append
    hjump

theorem glides_variables (braces : Pairs) (layout : Layout) (rest : List Char) :
    ∀ (vs : List Variable) (front : List Char) (found : List ContractAudit.Variable),
    front.length + (variablesChars layout vs).length ≤ stop →
      Glides (variablesFrom braces stop found)
        (variablesFrom braces stop ((vs.map Variable.record).reverse ++ found)) front
        (variablesChars layout vs) rest
  | [], front, found, _ => glides_nil _ front rest
  | v :: vs, front, found, hstop => by
    have hcons : variablesChars layout (v :: vs) =
        layout.member ++ (v.chars ++ [';']) ++ variablesChars layout vs := rfl
    rw [hcons] at hstop ⊢
    rw [List.length_append] at hstop
    have hlater :=
      glides_variables braces layout rest vs (front ++ (layout.member ++ (v.chars ++ [';'])))
      (v.record :: found) (by rw [List.length_append]; omega)
    have hall := (glides_variable v layout.isBlank_member (by omega)).append hlater
    simpa only [List.map_cons, List.reverse_cons, List.append_assoc, List.singleton_append]
      using hall

theorem glides_members (layout : Layout) (found : List ContractAudit.Variable) :
    ∀ (ms : List Member) (front : List Char),
      braces = Pairs.braces (front ++ (membersChars layout ms ++ rest)) →
      front.length + (membersChars layout ms).length ≤ stop →
        Glides (variablesFrom braces stop found) (variablesFrom braces stop found) front
          (membersChars layout ms) rest
  | [], front, _, _ => glides_nil _ front rest
  | m :: ms, front, hbraces, hstop => by
    have hcons : membersChars layout (m :: ms) =
        layout.member ++ m.chars layout ++ membersChars layout ms := rfl
    rw [hcons] at hbraces hstop ⊢
    rw [List.length_append] at hstop
    exact (glides_member m layout (by simpa using hbraces) (by omega)).append
      (glides_members layout found ms (front ++ (layout.member ++ m.chars layout))
        (by simpa using hbraces) (by rw [List.length_append]; omega))

/-- Behind the last member there are only blanks. -/
theorem variablesFrom_end (hgap : ∀ a ∈ gap, isBlank a) (hstop : stop = front.length + gap.length)
    {fuel : Nat} (hfuel : gap.length ≤ fuel) :
    variablesFrom braces stop found fuel (between front (gap ++ rest)) = found.reverse := by
  have hchars : ∀ a ∈ gap, isHeaderChar a := fun a ha => isHeaderChar_of_isBlank (hgap a ha)
  obtain ⟨n, hn, hrun⟩ := glides_variablesFrom
    (glides_stateVariablesFrom hchars (between front (gap ++ rest)) (Nat.le_of_eq hstop.symm))
  obtain ⟨k, rfl⟩ : ∃ k, fuel = n + k := ⟨fuel - n, by omega⟩
  rw [hrun]
  cases k with
  | zero => rfl
  | succ k => rw [stateVariablesFrom, if_neg (by simp [hstop])]

/-- The search for state variables finds those that are written. -/
theorem Contract.stateVariables_inside (c : Contract) (layout : Layout)
    (hbraces : braces = Pairs.braces (front ++ (c.inside layout ++ '}' :: rest))) :
    stateVariables braces (between front (c.inside layout ++ '}' :: rest))
      (front.length + (c.inside layout).length) = c.stateVars.map Variable.record := by
  obtain ⟨stop, hstop⟩ : ∃ stop, stop = front.length + (c.inside layout).length := ⟨_, rfl⟩
  obtain ⟨vars, hvars⟩ : ∃ vars, vars = variablesChars layout c.stateVars := ⟨_, rfl⟩
  obtain ⟨members, hmembers⟩ : ∃ members, members = membersChars layout c.members := ⟨_, rfl⟩
  have hinside : c.inside layout = vars ++ (members ++ layout.foot) := by
    rw [hvars, hmembers, inside]
  have hlen : stop = front.length + (vars.length + (members.length + layout.foot.length)) := by
    rw [hstop, hinside, List.length_append, List.length_append]
  rw [hinside] at hbraces
  obtain ⟨found, hfound⟩ : ∃ found, found = (c.stateVars.map Variable.record).reverse ++ [] :=
    ⟨_, rfl⟩
  have hpassVars :
      Glides (variablesFrom braces stop []) (variablesFrom braces stop found) front vars
      (members ++ (layout.foot ++ '}' :: rest)) := by
    rw [hfound, hvars]
    exact glides_variables braces layout _ c.stateVars front [] (by rw [← hvars]; omega)
  have hpassMembers : Glides (variablesFrom braces stop found) (variablesFrom braces stop found)
      (front ++ vars) members (layout.foot ++ '}' :: rest) := by
    rw [hmembers]
    refine glides_members layout found c.members (front ++ vars) ?_ ?_
    · rw [← hmembers, hbraces]
      simp
    · rw [← hmembers, List.length_append]
      omega
  obtain ⟨n, hn, hrun⟩ := hpassVars.append hpassMembers
  rw [List.length_append] at hn
  obtain ⟨k, hk⟩ : ∃ k, stop - front.length = n + k := ⟨stop - front.length - n, by omega⟩
  have hfuel : layout.foot.length ≤ k := by omega
  have hfoot : stop = (front ++ (vars ++ members)).length + layout.foot.length := by
    rw [List.length_append, List.length_append]
    omega
  rw [← hstop, hinside, stateVariables, offset_between, hk]
  calc variablesFrom braces stop [] (n + k)
          (between front (vars ++ (members ++ layout.foot) ++ '}' :: rest))
      = variablesFrom braces stop found k
          (between (front ++ (vars ++ members)) (layout.foot ++ '}' :: rest)) := by
        rw [← hrun]
        simp
    _ = c.stateVars.map Variable.record := by
        rw [variablesFrom_end layout.isBlank_foot hfoot hfuel, hfound]
        simp

end StateVariables

end Written

end ContractAudit
