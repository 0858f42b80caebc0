import ContractAudit.Command.Disk

/-!
# What changes on a disk

A tree of files is seen as the nodes at its places (`Tree.nodeAt`), a place being the names that
lead to it, the last one first. Where a path leads is told from the directories alone
(`follow_mono`), so paths keep leading where they led as long as directories stay. To write a file
changes the node at one place (`FileTree.write_eq_ok`), and to make directories changes no node that
is there (`FileTree.grows_makeDirectories`).
-/

namespace ContractAudit

/-! ## Places -/

variable {new t : Tree}

namespace Tree

/-- The tree that names lead to. -/
def sub? (t : Tree) : List String → Option Tree
  | [] => some t
  | name :: later => (t.entries.lookup name).bind (·.sub? later)

/-- The node at a place. -/
def nodeAt (t : Tree) (place : List String) : Option Node :=
  (t.sub? place.reverse).map node

theorem sub?_concat (t : Tree) (names : List String) (name : String) :
    t.sub? (names ++ [name]) = (t.sub? names).bind fun t' => t'.entries.lookup name := by
  induction names generalizing t with
  | nil => simp [sub?]
  | cons first names ih =>
    simp only [List.cons_append, sub?, Option.bind_assoc]
    exact congrArg _ (funext fun t' => ih t')

theorem lookup_filter_ne {α : Type} {name name' : String} (h : name' ≠ name)
    (es : List (String × α)) : (es.filter (·.1 != name)).lookup name' = es.lookup name' := by
  induction es with
  | nil => rfl
  | cons e es ih =>
    by_cases he : e.1 = name
    · have hne : (name' == e.1) = false := beq_eq_false_iff_ne.2 (he ▸ h)
      rw [List.filter_cons_of_neg (by simp [he]), ih, List.lookup_cons, hne]
    · rw [List.filter_cons_of_pos (by simp [he]), List.lookup_cons, List.lookup_cons, ih]

/-- A tree with nothing below it, put where nothing is below, in a directory : the node at this
place changes and no other. -/
theorem sub?_put (hnew : new.entries = []) : ∀ (names : List String) (t : Tree),
    (∀ front later, names = front ++ later → later ≠ [] →
      (t.sub? front).map node = some .directory) →
    (∀ old, t.sub? names = some old → old.entries = []) → ∀ other,
      ((put new names t).sub? other).map node =
        if other = names then some new.node else (t.sub? other).map node
  | [], t, _, hold, other => by
    cases other with
    | nil => rfl
    | cons name other => simp [put, sub?, hnew, hold t rfl]
  | name :: names, t, hfront, hold, other => by
    have htop : some t.node = some Node.directory := hfront [] (name :: names) rfl (by simp)
    cases other with
    | nil =>
      rw [if_neg (by simp)]
      exact htop.symm
    | cons name' other =>
      by_cases hname : name' = name
      · subst hname
        have hput : (put new (name' :: names) t).sub? (name' :: other) =
            (put new names ((t.entries.lookup name').getD (directory []))).sub? other := by
          simp [put, sub?, entries]
        have hsub : ∀ later, t.sub? (name' :: later) =
            (t.entries.lookup name').bind (·.sub? later) :=
          fun _ => rfl
        rw [hput]
        cases hlookup : t.entries.lookup name' with
        | some child =>
          simp only [hlookup, Option.bind_some] at hsub
          rw [Option.getD_some, sub?_put hnew names child, hsub]
          · simp
          · intro front later heq hlater
            rw [← hsub]
            exact hfront (name' :: front) later (by rw [heq, List.cons_append]) hlater
          · exact fun old hc => hold old ((hsub names).trans hc)
        | none =>
          -- Only the last name may lead to nothing.
          simp only [hlookup, Option.bind_none] at hsub
          have hlast : names = [] := by
            refine Classical.byContradiction fun hne => ?_
            have hchild := hfront [name'] names rfl hne
            rw [hsub] at hchild
            cases hchild
          subst hlast
          cases other with
          | nil => simp [put, sub?]
          | cons first other => simp [put, sub?, hnew, hlookup]
      · have hlookup : (put new (name :: names) t).sub? (name' :: other) =
            t.sub? (name' :: other) := by
          have hne : (name' == name) = false := beq_eq_false_iff_ne.2 hname
          simp only [put, sub?, entries, List.lookup_cons, hne, lookup_filter_ne hname]
        rw [hlookup, if_neg (by simp [hname])]

theorem nodeAt_put (hnew : new.entries = []) {place : List String}
    (hfront : ∀ later front, place = later ++ front → later ≠ [] → t.nodeAt front = some .directory)
    (hold : t.nodeAt place ≠ some .directory) (other : List String) :
    (put new place.reverse t).nodeAt other = if other = place then some new.node else
      t.nodeAt other := by
  rw [nodeAt, sub?_put hnew]
  · simp [nodeAt]
  · intro front later heq hlater
    have := hfront later.reverse front.reverse
      (by rw [← List.reverse_append, ← heq, List.reverse_reverse]) (by simpa using hlater)
    rwa [nodeAt, List.reverse_reverse] at this
  · intro old hsub
    cases old with
    | directory es => simp [nodeAt, hsub, node] at hold
    | file bytes => rfl

end Tree

/-! ## Paths -/

/-- The place a name leads to from a place, for which a directory has to be there. -/
def stepFrom (t : Tree) (place : List String) (name : String) : Except DiskFault (List String) :=
  match t.nodeAt place with
  | none => throw .notFound
  | some (.file _) => throw .notADirectory
  | some .directory =>
    if name == "" || name == "." then pure place
    else if name == ".." then pure place.tail
    else if nameLimit < name.utf8ByteSize then throw .nameTooLong
    else pure (name :: place)

/-- The place that names lead to from a place. -/
def follow (t : Tree) (place : List String) : List String → Except DiskFault (List String)
  | [] => pure place
  | name :: later => do follow t (← stepFrom t place name) later

/-- The directories passed on the way to a place. -/
def Passed (t : Tree) : List String → List Tree → Prop
  | [], [] => True
  | _ :: place, t' :: passed =>
    t.sub? place.reverse = some t' ∧ t'.node = .directory ∧ Passed t place passed
  | _, _ => False

/-- A spot in a tree : what it says of its place is so. -/
structure Spot.On (t : Tree) (s : Spot) : Prop where
  tree : s.tree = t.sub? s.names.reverse
  passed : Passed t s.names s.passed

namespace Spot

variable {t : Tree} {s : Spot}

theorem On.nodeAt (h : s.On t) : t.nodeAt s.names = s.tree.map Tree.node := by
  rw [Tree.nodeAt, h.tree]

theorem on_root (t : Tree) : (root t).On t :=
  ⟨rfl, trivial⟩

theorem On.up (h : s.On t) : s.up.On t ∧ s.up.names = s.names.tail := by
  obtain ⟨names, passed, tree⟩ := s
  obtain ⟨htree, hpassed⟩ := h
  cases names with
  | nil =>
    cases passed with
    | nil => exact ⟨⟨htree, trivial⟩, rfl⟩
    | cons t' passed => exact hpassed.elim
  | cons name names =>
    cases passed with
    | nil => exact hpassed.elim
    | cons t' passed => exact ⟨⟨hpassed.1.symm, hpassed.2.2⟩, rfl⟩

/-- A step leads where its name leads. -/
theorem On.step (h : s.On t) (name : String) :
    (∃ s', s.step name = .ok s' ∧ s'.On t ∧ stepFrom t s.names name = .ok s'.names) ∨
      ∃ fault, s.step name = .error fault ∧ stepFrom t s.names name = .error fault := by
  have hnode := h.nodeAt
  unfold Spot.step stepFrom
  rw [hnode]
  cases htree : s.tree with
  | none => exact Or.inr ⟨_, rfl, rfl⟩
  | some top =>
    cases top with
    | file bytes => exact Or.inr ⟨_, rfl, rfl⟩
    | directory es =>
      simp only [Option.map_some, Tree.node]
      split
      next => exact Or.inl ⟨s, rfl, h, rfl⟩
      next =>
        split
        next => exact Or.inl ⟨s.up, rfl, h.up.1, by rw [h.up.2]; rfl⟩
        next =>
          split
          next => exact Or.inr ⟨_, rfl, rfl⟩
          next =>
            have hsub : t.sub? s.names.reverse = some (.directory es) := h.tree.symm.trans htree
            refine Or.inl ⟨_, rfl, ⟨?_, hsub, rfl, h.passed⟩, rfl⟩
            rw [List.reverse_cons, Tree.sub?_concat, hsub]
            rfl

/-- A walk leads where its names lead. -/
theorem On.walk (h : s.On t) (names : List String) :
    (∃ s', s.walk names = .ok s' ∧ s'.On t ∧ follow t s.names names = .ok s'.names) ∨
      ∃ fault, s.walk names = .error fault ∧ follow t s.names names = .error fault := by
  induction names generalizing s with
  | nil => exact Or.inl ⟨s, rfl, h, rfl⟩
  | cons name names ih =>
    unfold Spot.walk follow
    rcases h.step name with ⟨s', hs, hon, hplace⟩ | ⟨fault, hs, hplace⟩
    · rw [hs, hplace]
      exact ih hon
    · rw [hs, hplace]
      exact Or.inr ⟨fault, rfl, rfl⟩

end Spot

/-- What stands on the way to a place are directories. -/
theorem Passed.nodeAt : ∀ {place : List String} {passed : List Tree}, Passed t place passed →
    ∀ later front, place = later ++ front → later ≠ [] → t.nodeAt front = some .directory
  | [], _, _, later, front, heq, hne => absurd (List.append_eq_nil_iff.1 heq.symm).1 hne
  | _ :: _, [], h, _, _, _, _ => h.elim
  | _ :: _, _ :: _, h, [], _, _, hne => absurd rfl hne
  | _ :: place, t' :: passed, h, _ :: later, front, heq, _ => by
    obtain ⟨hsub, hdirectory, hpassed⟩ := h
    obtain rfl := (List.cons.inj heq).2
    cases later with
    | nil =>
      have hfront : t.sub? front.reverse = some t' := hsub
      rw [Tree.nodeAt, hfront, Option.map_some, hdirectory]
    | cons name later => exact hpassed.nodeAt (name :: later) front rfl (by simp)

variable {name : String}

theorem stepFrom_mono {t t' : Tree}
    (h : ∀ place, t.nodeAt place = some .directory → t'.nodeAt place = some .directory)
    {place place' : List String} (hstep : stepFrom t place name = .ok place') :
    stepFrom t' place name = .ok place' := by
  unfold stepFrom at hstep ⊢
  cases hnode : t.nodeAt place with
  | none => rw [hnode] at hstep; cases hstep
  | some node =>
    cases node with
    | file bytes => rw [hnode] at hstep; cases hstep
    | directory => rw [h place hnode]; rwa [hnode] at hstep

/-- As long as directories stay, names lead where they led. -/
theorem follow_mono {t t' : Tree}
    (h : ∀ place, t.nodeAt place = some .directory → t'.nodeAt place = some .directory)
    {place place' : List String} {names : List String}
    (hfollow : follow t place names = .ok place') :
    follow t' place names = .ok place' := by
  induction names generalizing place with
  | nil => exact hfollow
  | cons name names ih =>
    unfold follow at hfollow ⊢
    cases hstep : stepFrom t place name with
    | error fault => rw [hstep] at hfollow; cases hfollow
    | ok next =>
      rw [stepFrom_mono h hstep]
      rw [hstep] at hfollow
      exact ih hfollow

/-- A name that stands for an entry of a directory. -/
structure IsEntryName (name : String) : Prop where
  ne_empty : name ≠ ""
  ne_here : name ≠ "."
  ne_up : name ≠ ".."

theorem stepFrom_entry {place place' : List String} (hname : IsEntryName name)
    (h : stepFrom t place name = .ok place') : place' = name :: place := by
  unfold stepFrom at h
  split at h
  next => cases h
  next => cases h
  next =>
    have hstay : ¬(name == "" || name == ".") := by simp [hname.ne_empty, hname.ne_here]
    have hup : ¬(name == "..") := by simp [hname.ne_up]
    rw [if_neg hstay, if_neg hup] at h
    split at h
    next => cases h
    next => exact (Except.ok.inj h).symm

/-- The last of the names, if it is that of an entry, is the first of the place. -/
theorem follow_concat {place place' names : List String} (hname : IsEntryName name)
    (h : follow t place (names ++ [name]) = .ok place') :
    ∃ front, follow t place names = .ok front ∧ place' = name :: front := by
  induction names generalizing place with
  | nil =>
    rw [List.nil_append] at h
    unfold follow at h
    cases hstep : stepFrom t place name with
    | error fault => rw [hstep] at h; cases h
    | ok next =>
      rw [hstep] at h
      obtain rfl : next = place' := Except.ok.inj h
      exact ⟨place, rfl, stepFrom_entry hname hstep⟩
  | cons first names ih =>
    rw [List.cons_append] at h
    unfold follow at h ⊢
    cases hstep : stepFrom t place first with
    | error fault => rw [hstep] at h; cases h
    | ok next =>
      rw [hstep] at h
      exact ih h

/-! ## Trees of files -/

namespace FileTree

/-- The place a path leads to. -/
def place (t : FileTree) (path : String) : Except DiskFault (List String) :=
  follow t.root [] (t.origin path ++ pathNames path)

variable {t : FileTree} {path : String} {node : Node}

theorem node?_eq_some_iff : t.node? path = some node ↔ path ≠ "" ∧ path.utf8ByteSize ≤ pathLimit ∧
      ∃ place, t.place path = .ok place ∧ t.root.nodeAt place = some node := by
  unfold node?
  split
  next h =>
    have hnot : ¬(path ≠ "" ∧ path.utf8ByteSize ≤ pathLimit) := by
      rintro ⟨hempty, hsize⟩
      simp only [Bool.or_eq_true, String.isEmpty_iff, decide_eq_true_eq] at h
      rcases h with h | h
      · exact hempty h
      · omega
    simp only [reduceCtorEq, false_iff]
    exact fun h' => hnot ⟨h'.1, h'.2.1⟩
  next h =>
    simp only [Bool.or_eq_true, String.isEmpty_iff, decide_eq_true_eq, not_or, Nat.not_lt] at h
    rcases (Spot.on_root t.root).walk (t.origin path ++ pathNames path) with
      ⟨s, hwalk, hon, hfollow⟩ | ⟨fault, hwalk, hfollow⟩
    · have hplace : t.place path = .ok s.names := hfollow
      simp [hwalk, hplace, h.1, h.2, hon.nodeAt]
    · have hplace : t.place path = .error fault := hfollow
      simp [hwalk, hplace]

/-- Nothing that was there changed. -/
structure Grows (t t' : FileTree) : Prop where
  home : t'.home = t.home
  nodeAt : ∀ place node, t.root.nodeAt place = some node → t'.root.nodeAt place = some node

theorem Grows.refl (t : FileTree) : Grows t t :=
  ⟨rfl, fun _ _ h => h⟩

theorem Grows.trans {t t' t'' : FileTree} (h : Grows t t') (h' : Grows t' t'') : Grows t t'' :=
  ⟨h'.home.trans h.home, fun place node hnode => h'.nodeAt place node (h.nodeAt place node hnode)⟩

/-- What is put at the spot of a walk changes the node there and no other. -/
theorem nodeAt_put {s : Spot} (h : s.On t.root) (hold : t.root.nodeAt s.names ≠ some .directory)
    (hnew : new.entries = []) (other : List String) :
    (t.put s new).root.nodeAt other = if other = s.names then some new.node else
      t.root.nodeAt other :=
  Tree.nodeAt_put hnew h.passed.nodeAt hold other

theorem grows_put {s : Spot} (h : s.On t.root) (hnone : s.tree = none) :
    Grows t (t.put s (.directory [])) := by
  have hnode : t.root.nodeAt s.names = none := by rw [h.nodeAt, hnone, Option.map_none]
  refine ⟨rfl, fun place node hplace => ?_⟩
  have hne : place ≠ s.names := by
    rintro rfl
    rw [hnode] at hplace
    cases hplace
  rw [nodeAt_put h (by simp [hnode]) rfl, if_neg hne, hplace]

variable {t t' : FileTree}

theorem grows_makeDirectory (h : t.makeDirectory path = .ok t') : Grows t t' := by
  unfold makeDirectory at h
  split at h
  next => cases h
  next =>
    split at h
    next => cases h
    next =>
      split at h
      next => cases h
      next =>
        rcases (Spot.on_root t.root).walk
          (t.origin path ++ ((pathNames path).reverse.dropWhile (· == "")).reverse) with
          ⟨s, hwalk, hon, -⟩ | ⟨fault, hwalk, -⟩
        · dsimp only at h
          rw [hwalk] at h
          replace h : (if s.tree.isSome then throw DiskFault.alreadyExists
              else pure (t.put s (.directory []))) = Except.ok t' := h
          split at h
          next => cases h
          next hnone =>
            obtain rfl := Except.ok.inj h
            exact grows_put hon (by simpa using hnone)
        · dsimp only at h
          rw [hwalk] at h
          cases h

theorem grows_ensureDirectory (t : FileTree) (path : String) :
    Grows t (t.ensureDirectory path).2 := by
  unfold ensureDirectory
  split
  next h => exact grows_makeDirectory h
  next =>
    split
    next => exact Grows.refl t
    next => exact Grows.refl t

theorem grows_makeAll (t : FileTree) (depth : Nat) (path : List Char) :
    Grows t (t.makeAll depth path).2 := by
  induction depth generalizing path with
  | zero => exact Grows.refl t
  | succ depth ih =>
    unfold makeAll
    obtain ⟨before, name⟩ := splitLast path
    dsimp only
    obtain ⟨before, name⟩ := if name.isEmpty then splitLast before else (before, name)
    dsimp only
    have hmade := ih before
    have hthen : Grows t ((t.makeAll depth before).2.ensureDirectory (String.ofList path)).2 :=
      hmade.trans (grows_ensureDirectory _ _)
    split
    next => exact grows_ensureDirectory t _
    next =>
      split
      next =>
        split
        next => exact hmade
        next =>
          split
          next => exact hmade
          next => exact hthen
      next =>
        split
        next => exact hmade
        next => exact hthen

theorem grows_makeDirectories (t : FileTree) (path : String) : Grows t (t.makeDirectories path).2 :=
  t.grows_makeAll nestingLimit path.toList

/-- To write a file changes the node at the place of its path and no other. -/
theorem write_eq_ok {bytes : List UInt8} (h : t.write path bytes = .ok t') :
    path.utf8ByteSize ≤ pathLimit ∧ t'.home = t.home ∧
      ∃ place, t.place path = .ok place ∧ t.root.nodeAt place ≠ some .directory ∧
        ∀ other, t'.root.nodeAt other =
          if other = place then some (.file bytes) else t.root.nodeAt other := by
  unfold write at h
  split at h
  next => cases h
  next =>
    split at h
    next => cases h
    next hsize =>
      rcases (Spot.on_root t.root).walk (t.origin path ++ pathNames path) with
        ⟨s, hwalk, hon, hfollow⟩ | ⟨fault, hwalk, hfollow⟩
      · rw [hwalk] at h
        have hput : s.tree.map Tree.node ≠ some .directory ∧ t' = t.put s (.file bytes) := by
          dsimp only at h
          split at h
          next => cases h
          next hdirectory =>
            refine ⟨fun hnode => ?_, (Except.ok.inj h).symm⟩
            obtain ⟨top, htop, htopnode⟩ := Option.map_eq_some_iff.1 hnode
            cases top with
            | directory es => exact hdirectory es htop
            | file bytes => cases htopnode
        obtain ⟨hold, rfl⟩ := hput
        rw [← hon.nodeAt] at hold
        exact ⟨Nat.not_lt.1 hsize, rfl, s.names, hfollow, hold, nodeAt_put hon hold rfl⟩
      · rw [hwalk] at h
        cases h

/-- Paths lead where they led as long as directories stay. -/
theorem place_mono (hhome : t'.home = t.home)
    (h : ∀ place, t.root.nodeAt place = some .directory → t'.root.nodeAt place = some .directory)
    {place : List String} (hplace : t.place path = .ok place) : t'.place path = .ok place := by
  have horigin : t'.origin path = t.origin path := by rw [origin, origin, hhome]
  rw [FileTree.place, horigin]
  exact follow_mono h hplace

theorem Grows.node? (h : Grows t t') (hnode : t.node? path = some node) :
    t'.node? path = some node := by
  obtain ⟨hempty, hsize, place, hplace, hat⟩ := node?_eq_some_iff.1 hnode
  exact node?_eq_some_iff.2 ⟨hempty, hsize, place,
    place_mono h.home (fun place => h.nodeAt place _) hplace, h.nodeAt place node hat⟩

section Write

variable {t t' : FileTree} {path : String} {bytes : List UInt8} (h : t.write path bytes = .ok t')

include h

theorem place_write {path' : String} {place : List String} (hplace : t.place path' = .ok place) :
    t'.place path' = .ok place := by
  obtain ⟨-, hhome, written, -, hold, hnodes⟩ := write_eq_ok h
  refine place_mono hhome (fun other hother => ?_) hplace
  rw [hnodes, if_neg (by rintro rfl; exact hold hother), hother]

/-- What was written is there. -/
theorem node?_write_self (hpath : path ≠ "") : t'.node? path = some (.file bytes) := by
  obtain ⟨hsize, -, place, hplace, -, hnodes⟩ := write_eq_ok h
  exact node?_eq_some_iff.2
    ⟨hpath, hsize, place, place_write h hplace, by rw [hnodes, if_pos rfl]⟩

/-- What is at another place is still there. -/
theorem node?_write_other {path' : String} (hnode : t.node? path' = some node)
    (hne : ∀ place, t.place path = .ok place → t.place path' ≠ .ok place) :
    t'.node? path' = some node := by
  obtain ⟨hempty, hsize, place', hplace', hat⟩ := node?_eq_some_iff.1 hnode
  obtain ⟨-, -, place, hplace, -, hnodes⟩ := write_eq_ok h
  have hother : place' ≠ place := by
    rintro rfl
    exact hne place' hplace hplace'
  exact node?_eq_some_iff.2
    ⟨hempty, hsize, place', place_write h hplace', by rw [hnodes, if_neg hother, hat]⟩

end Write

end FileTree

end ContractAudit
