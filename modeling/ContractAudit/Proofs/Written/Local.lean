import ContractAudit.Proofs.Written.Text

/-!
# Declarations of local variables

What it is to declare a local variable is said here by the tokens of a statement, without a look at
how a scan reads it : a type, perhaps a data location, and a name, either alone, with a value
assigned to it, or as a part of a tuple that is assigned (`DeclaresLocal`). Blanks only divide
words, so a name behind a dot belongs to a path, whatever stands between the two. A name behind a
written type is declared (`TypeName.declaresLocal`). A declared name stands right behind a token
that may end a type (`DeclaresLocal.standsBehindType`), which no dot does.
-/

namespace ContractAudit

namespace Written

/-! ## Tokens -/

/-- A word, or another character that is no blank. -/
inductive Token where
  | word (chars : List Char)
  | sign (a : Char)
  deriving DecidableEq, Repr

/-- The word of the characters that are kept reversed, if there are any. -/
def Token.ofRun (run : List Char) : List Token :=
  if run.isEmpty then [] else [.word run.reverse]

/-- The tokens of a text behind the characters `run` of a word (kept reversed). -/
def tokensFrom (run : List Char) : List Char → List Token
  | [] => Token.ofRun run
  | a :: cs =>
    if isWordChar a then tokensFrom (a :: run) cs
    else Token.ofRun run ++ ((if isBlank a then [] else [.sign a]) ++ tokensFrom [] cs)

/-- The tokens of a text. -/
def tokens (cs : List Char) : List Token :=
  tokensFrom [] cs

section Tokens

variable {w rest : List Char}

theorem tokensFrom_append (hw : ∀ a ∈ w, isWordChar a) (run rest : List Char) :
    tokensFrom run (w ++ rest) = tokensFrom (w.reverse ++ run) rest := by
  induction w generalizing run with
  | nil => rfl
  | cons a w ih =>
    obtain ⟨ha, hw⟩ := List.forall_mem_cons.1 hw
    rw [List.cons_append, tokensFrom, if_pos ha, ih hw, List.reverse_cons, List.append_assoc,
      List.singleton_append]

variable {a : Char}

theorem tokensFrom_cons (ha : isWordChar a = false) (run rest : List Char) :
    tokensFrom run (a :: rest) = Token.ofRun run ++ tokens (a :: rest) := by
  simp [tokens, tokensFrom, ha, Token.ofRun]

/-- A word up to its end is a token. -/
theorem tokens_word (hw : ∀ a ∈ w, isWordChar a) (hne : w ≠ [])
    (hrest : rest.head?.any isWordChar = false) : tokens (w ++ rest) = .word w :: tokens rest := by
  have hrun : Token.ofRun w.reverse = [.word w] := by simp [Token.ofRun, hne]
  rw [tokens, tokensFrom_append hw, List.append_nil]
  cases rest with
  | nil => rw [tokensFrom, hrun]; rfl
  | cons a rest => rw [tokensFrom_cons hrest, hrun, List.singleton_append]

theorem tokens_sign (ha : isWordChar a = false) (hblank : isBlank a = false) (rest : List Char) :
    tokens (a :: rest) = .sign a :: tokens rest := by
  simp [tokens, tokensFrom, ha, hblank, Token.ofRun]

theorem tokens_blank (ha : isBlank a) (rest : List Char) : tokens (a :: rest) = tokens rest := by
  simp [tokens, tokensFrom, isWordChar_of_isBlank ha, ha, Token.ofRun]

theorem Name.tokens_append (n : Name) (hrest : rest.head?.any isWordChar = false) :
    tokens (n.chars ++ rest) = .word n.chars :: tokens rest :=
  tokens_word n.isWordChar_of_mem n.chars_ne_nil hrest

end Tokens

/-! ## Declarations -/

/-- A name with the names it is qualified by in front. -/
inductive IsPath : List Token → Prop
  | name (n : Name) : IsPath [.word n.chars]
  | member {ts : List Token} (h : IsPath ts) (n : Name) : IsPath (ts ++ [.sign '.', .word n.chars])

/-- A type : a path, an address that can be paid, an array of a type, or a mapping, whose keys and
values may have names. -/
inductive IsType : List Token → Prop
  | path {ts : List Token} (h : IsPath ts) : IsType ts
  | payable : IsType [.word "address".toList, .word "payable".toList]
  | array {ts size : List Token} (h : IsType ts)
      (hsize : ∀ t ∈ size, t ≠ .sign '[' ∧ t ≠ .sign ']') :
    IsType (ts ++ .sign '[' :: (size ++ [.sign ']']))
  | mapping {ks vs : List Token} (hk : IsType ks) (hv : IsType vs) (key value : Option Name) :
    IsType (.word TypeName.keyword :: .sign '(' :: (ks ++ key.toList.map (.word ·.chars) ++
      .sign '=' :: .sign '>' :: (vs ++ value.toList.map (.word ·.chars) ++ [.sign ')'])))

/-- A type and the name, with a data location other than storage between them or none. -/
def DeclaresVariable (n : Name) (ts : List Token) : Prop :=
  ∃ (type : List Token) (place : Option Place), IsType type ∧ place ≠ some .storage ∧
    ts = type ++ place.toList.map (.word ·.keyword.toList) ++ [.word n.chars]

/-- What may follow an equals sign that assigns : it is no part of a comparison or an arrow. -/
def isValue (ts : List Token) : Bool :=
  ts.head? != some (.sign '=') && ts.head? != some (.sign '>')

/-- The tokens of a statement that declares the name as a local variable outside storage. -/
inductive DeclaresLocal (n : Name) : List Token → Prop
  | alone {ts : List Token} (h : DeclaresVariable n ts) : DeclaresLocal n ts
  | assigned {ts value : List Token} (h : DeclaresVariable n ts) (hvalue : isValue value) :
    DeclaresLocal n (ts ++ .sign '=' :: value)
  | tuple {left ts right value : List Token} (h : DeclaresVariable n ts)
    (hleft : left = [] ∨ left.getLast? = some (.sign ','))
    (hright : right = [] ∨ right.head? = some (.sign ',')) (hvalue : isValue value) :
    DeclaresLocal n (.sign '(' :: (left ++ ts ++ right ++ .sign ')' :: .sign '=' :: value))

/-- The statement declares the name as a local variable outside storage. -/
def Statement.Declares (n : Name) (s : Statement) : Prop :=
  DeclaresLocal n (tokens s.chars)

/-! ## Written declarations -/

/-- The text has the tokens wherever no word goes on behind it. -/
def Spells (ts : List Token) (cs : List Char) : Prop :=
  ∀ rest : List Char, rest.head?.any isWordChar = false → tokens (cs ++ rest) = ts ++ tokens rest

theorem IsPath.exists_of_members :
    ∀ (others : List Name) {ts : List Token} {us : List Char}, IsPath ts →
    Spells ts us → ∃ ts', IsPath ts' ∧ Spells ts' (us ++ others.flatMap fun n => '.' :: n.chars)
  | [], ts, us, hpath, hspells => ⟨ts, hpath, by simpa using hspells⟩
  | n :: others, ts, us, hpath, hspells => by
    have hmember :
        Spells (ts ++ [.sign '.', .word n.chars]) (us ++ '.' :: n.chars) := fun rest hrest => by
      rw [List.append_assoc, List.cons_append, hspells _ rfl, tokens_sign rfl rfl,
        n.tokens_append hrest]
      simp
    simpa using exists_of_members others (hpath.member n) hmember

theorem IsType.exists_of_sizes :
    ∀ (sizes : List Size) {ts : List Token} {us : List Char}, IsType ts →
    Spells ts us → ∃ ts', IsType ts' ∧
      Spells ts' (us ++ sizes.flatMap fun s => '[' :: (s.digits ++ [']']))
  | [], ts, us, htype, hspells => ⟨ts, htype, by simpa using hspells⟩
  | s :: sizes, ts, us, htype, hspells => by
    obtain ⟨size, hplain, hsize⟩ : ∃ size : List Token,
      (∀ t ∈ size, t ≠ .sign '[' ∧ t ≠ .sign ']') ∧ Spells size s.digits := by
      cases hdigits : s.digits with
      | nil => exact ⟨[], List.forall_mem_nil _, fun rest _ => rfl⟩
      | cons a cs => exact ⟨[.word (a :: cs)], by simp, fun rest hrest =>
          tokens_word (hdigits ▸ s.isWordChar_of_mem) (List.cons_ne_nil a cs) hrest⟩
    have harray :
        Spells (ts ++ .sign '[' :: (size ++ [.sign ']'])) (us ++ '[' :: (s.digits ++ [']'])) :=
      fun rest hrest => by
        simp only [List.append_assoc, List.cons_append, List.nil_append]
        rw [hspells _ rfl, tokens_sign rfl rfl, hsize _ rfl, tokens_sign rfl rfl]
    simpa using exists_of_sizes sizes (htype.array hplain) harray

/-- A written type is a type. -/
theorem TypeName.exists_spells : ∀ t : TypeName, ∃ ts, IsType ts ∧ Spells ts t.chars
  | plain first others sizes => by
    obtain ⟨ts, hpath, hspells⟩ := IsPath.exists_of_members others (.name first) fun _ =>
      first.tokens_append
    obtain ⟨ts, htype, hspells⟩ := IsType.exists_of_sizes sizes (.path hpath) hspells
    exact ⟨ts, htype, by simpa [chars] using hspells⟩
  | mapping key value => by
    obtain ⟨ks, hks, hkey⟩ := key.exists_spells
    obtain ⟨vs, hvs, hvalue⟩ := value.exists_spells
    refine ⟨_, .mapping hks hvs none none, fun rest _ => ?_⟩
    simp only [chars, List.append_assoc, List.cons_append, List.nil_append]
    rw [tokens_word (w := keyword) (by decide) (by decide) rfl, tokens_sign rfl rfl, hkey _ rfl,
      tokens_blank rfl, tokens_sign rfl rfl, tokens_sign rfl rfl, tokens_blank rfl, hvalue _ rfl,
      tokens_sign rfl rfl]
    simp

/-- A written type and a name behind a space declare the name, with or without a value. -/
theorem TypeName.declaresLocal (t : TypeName) (n : Name) {value : List Char}
    (hvalue : isValue (tokens value)) : DeclaresLocal n (tokens (t.chars ++ ' ' :: n.chars)) ∧
      DeclaresLocal n (tokens (t.chars ++ ' ' :: (n.chars ++ '=' :: value))) := by
  obtain ⟨ts, htype, hspells⟩ := t.exists_spells
  have hvariable : DeclaresVariable n (ts ++ [.word n.chars]) := ⟨ts, none, htype, by simp, by simp⟩
  have hname : tokens n.chars = [.word n.chars] := by
    rw [← List.append_nil n.chars, n.tokens_append rfl, List.append_nil]
    rfl
  rw [hspells _ rfl, hspells _ rfl, tokens_blank rfl, tokens_blank rfl, hname, n.tokens_append rfl,
    tokens_sign rfl rfl]
  exact ⟨.alone hvariable, by simpa using DeclaresLocal.assigned hvariable hvalue⟩

/-! ## What stands in front of a declared name -/

/-- May a type end with the token? -/
def Token.endsType : Token → Bool
  | word _ => true
  | sign a => a == ']' || a == ')'

/-- Does the name stand somewhere right behind a token that may end a type? -/
def standsBehindType (n : Name) : List Token → Bool
  | t :: u :: ts => (t.endsType && u == .word n.chars) || standsBehindType n (u :: ts)
  | _ => false

variable {n : Name} {ts : List Token}

theorem standsBehindType_append {t : Token} (ht : t.endsType) (later : List Token) :
    ∀ earlier : List Token, standsBehindType n (earlier ++ t :: .word n.chars :: later)
  | [] => by simp [standsBehindType, ht]
  | [u] => by simp [standsBehindType, ht]
  | u :: v :: earlier => by
    have ih := standsBehindType_append ht later (v :: earlier)
    rw [List.cons_append] at ih
    rw [List.cons_append, List.cons_append, standsBehindType, ih, Bool.or_true]

theorem IsType.endsType_getLast? (h : IsType ts) : ts.getLast?.any Token.endsType := by
  cases h with
  | path h => cases h <;> simp [Token.endsType]
  | payable => rfl
  | array => simp [List.getLast?_cons, List.getLast?_append, Token.endsType]
  | mapping => simp [List.getLast?_cons, List.getLast?_append, Token.endsType]

theorem DeclaresVariable.exists_concat (h : DeclaresVariable n ts) :
    ∃ init t, ts = init ++ [t, .word n.chars] ∧ t.endsType := by
  obtain ⟨type, place, htype, -, rfl⟩ := h
  cases place with
  | none =>
    obtain ⟨t, hlast, ht⟩ := (Option.any_eq_true _ _).1 htype.endsType_getLast?
    obtain ⟨init, rfl⟩ := List.getLast?_eq_some_iff.1 hlast
    exact ⟨init, t, by simp, ht⟩
  | some place => exact ⟨type, .word place.keyword.toList, by simp, rfl⟩

/-- A name that is declared stands right behind a type or a data location. -/
theorem DeclaresLocal.standsBehindType (h : DeclaresLocal n ts) : standsBehindType n ts := by
  have hbehind (front back : List Token) {ts : List Token} (h : DeclaresVariable n ts) :
      Written.standsBehindType n (front ++ (ts ++ back)) := by
    obtain ⟨init, t, rfl, ht⟩ := h.exists_concat
    have hstands := standsBehindType_append (n := n) ht back (front ++ init)
    simpa using hstands
  cases h with
  | alone h => simpa using hbehind [] [] h
  | assigned h hvalue => exact hbehind [] _ h
  | @tuple left _ right value h hleft hright hvalue =>
    have hstands := hbehind (.sign '(' :: left) (right ++ .sign ')' :: .sign '=' :: value) h
    simpa using hstands

end Written

end ContractAudit
