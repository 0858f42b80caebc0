import ContractAudit.JsonValue
import ContractAudit.Proofs.Text.Split

/-!
# Reading JSON

`JsonValue.parse` reads JSON whose numbers are integers, in two passes. `Lexer.step` takes a
character and tells which tokens it completes; within a string it gathers the units of UTF-16, and
at the end of the string two surrogates are joined (`joined`). `Parser.step` takes a token and keeps
the arrays and objects that are open. A text that stops within a string, holds a lone surrogate or a
bare control character in one, or a comma behind the last item, is not read.

What is written is read back, with any indentation (`JsonValue.parse_text`).
-/

namespace ContractAudit

namespace JsonValue

/-! ## Tokens -/

/-- A token of a JSON document. -/
inductive Token where
  | openArr | closeArr | openObj | closeObj | comma | colon
  | text (s : String)
  /-- What is neither a string nor a mark : a number or one of the three names. -/
  | word (cs : List Char)
  deriving DecidableEq, Repr

/-- The tokens of a single character. -/
def marks : List (Char × Token) :=
  [('[', .openArr), (']', .closeArr), ('{', .openObj), ('}', .closeObj), (',', .comma),
    (':', .colon)]

/-- What a character between two tokens stands for, if it is a blank or a mark. -/
def delimiter? (c : Char) : Option (List Token) :=
  if c == ' ' || c == '\n' || c == '\r' || c == '\t' then some []
  else (marks.lookup c).map ([·])

/-- The characters behind a backslash, with what they stand for. -/
def shortEscapes : List (Char × Char) :=
  [('"', '"'), ('\\', '\\'), ('/', '/'), ('b', '\x08'), ('f', '\x0c'), ('n', '\n'), ('r', '\r'),
    ('t', '\t')]

/-- The value of a hexadecimal digit. -/
def hexValue? (c : Char) : Option Nat :=
  if '0' ≤ c ∧ c ≤ '9' then some (c.toNat - 48)
  else if 'a' ≤ c ∧ c ≤ 'f' then some (c.toNat - 87)
  else if 'A' ≤ c ∧ c ≤ 'F' then some (c.toNat - 55)
  else none

/-- The number is the first half of a surrogate pair. -/
def isHighSurrogate (n : Nat) : Bool :=
  0xD800 ≤ n && n < 0xDC00

/-- The number is the second half of a surrogate pair. -/
def isLowSurrogate (n : Nat) : Bool :=
  0xDC00 ≤ n && n < 0xE000

/-- The characters of a string of units, behind a high surrogate if one is given. -/
def joinedFrom : Option Nat → List Nat → Option (List Char)
  | none, [] => some []
  | some _, [] => none
  | none, n :: units =>
    if isHighSurrogate n then joinedFrom (some n) units
    else if isLowSurrogate n then none
    else (joinedFrom none units).map (Char.ofNat n :: ·)
  | some high, n :: units =>
    if isLowSurrogate n then
      (joinedFrom none units).map
        (Char.ofNat (0x10000 + (high - 0xD800) * 0x400 + (n - 0xDC00)) :: ·)
    else none

/-- The text made of units. -/
def joined (units : List Nat) : Option String :=
  (joinedFrom none units).map String.ofList

/-- Where the first pass stands. What was read is kept reversed. -/
inductive Lexer where
  | between
  | word (read : List Char)
  | plain (units : List Nat)
  /-- Behind a backslash. -/
  | escape (units : List Nat)
  /-- In an escape by number, with `left` digits due behind the next. -/
  | number (units : List Nat) (left n : Nat)
  deriving DecidableEq, Repr

namespace Lexer

/-- The tokens a character completes, and the state behind it. -/
def step : Lexer → Char → Option (List Token × Lexer)
  | between, c =>
    match delimiter? c with
    | some ts => some (ts, between)
    | none => some ([], if c == '"' then plain [] else word [c])
  | word read, c =>
    match delimiter? c with
    | some ts => some (.word read.reverse :: ts, between)
    | none => if c == '"' then none else some ([], word (c :: read))
  | plain units, c =>
    if c == '"' then (joined units.reverse).map fun s => ([.text s], between)
    else if c == '\\' then some ([], escape units)
    else if c < ' ' then none
    else some ([], plain (c.toNat :: units))
  | escape units, c =>
    if c == 'u' then some ([], number units 3 0)
    else (shortEscapes.lookup c).map fun d => ([], plain (d.toNat :: units))
  | number units left n, c =>
    (hexValue? c).map fun d =>
      ([], if left = 0 then plain ((16 * n + d) :: units) else number units (left - 1) (16 * n + d))

/-- The token that the end of the text completes. -/
def finish : Lexer → Option (List Token)
  | between => some []
  | word read => some [.word read.reverse]
  | plain _ | escape _ | number _ _ _ => none

end Lexer

/-- The tokens of the text that is left, read from a state of the lexer. -/
def tokensFrom (state : Lexer) : List Char → Option (List Token)
  | [] => state.finish
  | c :: cs => (state.step c).bind fun next => (tokensFrom next.2 cs).map (next.1 ++ ·)

/-! ## Values -/

/-- Decimal digits with no zero in front. -/
def natural? (cs : List Char) : Option Nat :=
  if !cs.isEmpty && cs.all Char.isDigit && (cs.head? != some '0' || cs.length == 1) then
    some (Nat.ofDigitChars 10 cs 0)
  else none

/-- The integer a word writes. -/
def integer? (cs : List Char) : Option Int :=
  if cs.head? == some '-' then (natural? cs.tail).map fun n => -(n : Int)
  else (natural? cs).map fun n => (n : Int)

/-- The value a word stands for : one of the three names or an integer. -/
def wordValue? (cs : List Char) : Option JsonValue :=
  if cs == "null".toList then some null
  else if cs == "true".toList then some (bool true)
  else if cs == "false".toList then some (bool false)
  else (integer? cs).map num

/-- An array or an object that is open, with what was read of it, reversed. -/
inductive Frame where
  | item (read : List JsonValue)
  | field (read : List (String × JsonValue)) (name : String)

/-- Where the second pass stands in the innermost array or object. -/
inductive Phase where
  /-- Before a value. -/
  | value
  /-- Before the name of a field. -/
  | name (read : List (String × JsonValue))
  /-- Behind the name of a field. -/
  | named (read : List (String × JsonValue)) (name : String)
  /-- Behind a value. -/
  | had (v : JsonValue)

/-- A document that is partly read : what is still open around the place, and what may come next. -/
structure Parser where
  stack : List Frame
  phase : Phase

namespace Parser

/-- Reads one token; no token that may not come next is read. -/
def step : Parser → Token → Option Parser
  | ⟨stack, .value⟩, .text s => some ⟨stack, .had (str s)⟩
  | ⟨stack, .value⟩, .word cs => (wordValue? cs).map fun v => ⟨stack, .had v⟩
  | ⟨stack, .value⟩, .openArr => some ⟨.item [] :: stack, .value⟩
  | ⟨stack, .value⟩, .openObj => some ⟨stack, .name []⟩
  | ⟨.item [] :: stack, .value⟩, .closeArr => some ⟨stack, .had (arr [])⟩
  | ⟨stack, .name []⟩, .closeObj => some ⟨stack, .had (obj [])⟩
  | ⟨stack, .name read⟩, .text s => some ⟨stack, .named read s⟩
  | ⟨stack, .named read name⟩, .colon => some ⟨.field read name :: stack, .value⟩
  | ⟨.item read :: stack, .had v⟩, .comma => some ⟨.item (v :: read) :: stack, .value⟩
  | ⟨.item read :: stack, .had v⟩, .closeArr => some ⟨stack, .had (arr (v :: read).reverse)⟩
  | ⟨.field read name :: stack, .had v⟩, .comma => some ⟨stack, .name ((name, v) :: read)⟩
  | ⟨.field read name :: stack, .had v⟩, .closeObj =>
    some ⟨stack, .had (obj ((name, v) :: read).reverse)⟩
  | _, _ => none

/-- Reads the tokens in order. -/
def run (p : Parser) : List Token → Option Parser
  | [] => some p
  | t :: ts => (p.step t).bind (·.run ts)

/-- The value, if nothing is open. -/
def result : Parser → Option JsonValue
  | ⟨[], .had v⟩ => some v
  | _ => none

end Parser

/-- The value that tokens stand for. -/
def ofTokens (ts : List Token) : Option JsonValue :=
  (Parser.run ⟨[], .value⟩ ts).bind Parser.result

/-- The value that a text stands for. -/
def parse (s : String) : Option JsonValue :=
  (tokensFrom .between s.toList).bind ofTokens

/-! ## The tokens of a value -/

mutual

/-- The tokens that write a value. -/
def tokens : JsonValue → List Token
  | null => [.word "null".toList]
  | bool b => [.word (if b then "true".toList else "false".toList)]
  | num n => [.word (toString n).toList]
  | str s => [.text s]
  | arr items => .openArr :: [Token.comma].intercalate (itemTokens items) ++ [.closeArr]
  | obj fields => .openObj :: [Token.comma].intercalate (fieldTokens fields) ++ [.closeObj]

/-- The tokens of each item of an array. -/
def itemTokens : List JsonValue → List (List Token)
  | [] => []
  | item :: later => item.tokens :: itemTokens later

/-- The tokens of each field of an object. -/
def fieldTokens : List (String × JsonValue) → List (List Token)
  | [] => []
  | (name, value) :: later => (.text name :: .colon :: value.tokens) :: fieldTokens later

end

/-! ## Strings -/

theorem hexValue?_hexDigit (n : Nat) : hexValue? (hexDigit n) = some (n % 16) := by
  have hlist : "0123456789abcdef".toList =
      ['0', '1', '2', '3', '4', '5', '6', '7', '8', '9', 'a', 'b', 'c', 'd', 'e', 'f'] :=
        String.toList_ofList
  have hdigits : ∀ d < 16,
      hexValue? (['0', '1', '2', '3', '4', '5', '6', '7', '8', '9', 'a', 'b', 'c',
      'd', 'e', 'f'][d]?.getD '0') = some d := by decide +kernel
  unfold hexDigit
  rw [hlist]
  exact hdigits _ (Nat.mod_lt _ (by decide))

/-- The units of UTF-16 of a character. -/
def units (c : Char) : List Nat :=
  if c.toNat < 0x10000 then [c.toNat]
  else [0xD800 + (c.toNat - 0x10000) / 0x400, 0xDC00 + (c.toNat - 0x10000) % 0x400]

/-- A step that completes nothing. -/
theorem tokensFrom_step {state next : Lexer} {c : Char} (h : state.step c = some ([], next))
    (cs : List Char) : tokensFrom state (c :: cs) = tokensFrom next cs := by
  simp [tokensFrom, h]

theorem tokensFrom_unitEscape {n : Nat} (hn : n < 0x10000) (read : List Nat) (cs : List Char) :
    tokensFrom (.plain read) (unitEscape n ++ cs) = tokensFrom (.plain (n :: read)) cs := by
  have hslash : Lexer.step (.plain read) '\\' = some ([], .escape read) := rfl
  have hu : Lexer.step (.escape read) 'u' = some ([], .number read 3 0) := rfl
  have hdigit : ∀ left m d, Lexer.step (.number read (left + 1) m) (hexDigit d) =
      some ([], .number read left (16 * m + d % 16)) := by
    simp [Lexer.step, hexValue?_hexDigit]
  have hlast : ∀ m d, Lexer.step (.number read 0 m) (hexDigit d) =
      some ([], .plain ((16 * m + d % 16) :: read)) := by
    simp [Lexer.step, hexValue?_hexDigit]
  have hchars : unitEscape n ++ cs = '\\' :: 'u' :: hexDigit (n / 16 / 16 / 16) ::
      hexDigit (n / 16 / 16) :: hexDigit (n / 16) :: hexDigit n :: cs := rfl
  have hvalue :
      16 * (16 * (16 * (16 * 0 + n / 16 / 16 / 16 % 16) + n / 16 / 16 % 16) + n / 16 % 16) +
      n % 16 = n := by omega
  rw [hchars, tokensFrom_step hslash, tokensFrom_step hu, tokensFrom_step (hdigit 2 _ _),
    tokensFrom_step (hdigit 1 _ _), tokensFrom_step (hdigit 0 _ _), tokensFrom_step (hlast _ _),
    hvalue]

theorem lt_of_mem_units {c : Char} {n : Nat} (h : n ∈ units c) : n < 0x10000 := by
  have hvalid : c.toNat < 0xD800 ∨ 0xDFFF < c.toNat ∧ c.toNat < 0x110000 := c.valid
  unfold units at h
  split at h <;> simp only [List.mem_cons, List.not_mem_nil, or_false] at h <;> omega

/-- A character stands behind a backslash, as itself, or by its units. -/
theorem escaped_cases (c : Char) :
    (∃ d, shortEscapes.lookup d = some c ∧ d ≠ 'u' ∧ c.toNat < 0x10000 ∧ escaped c = ['\\', d]) ∨
      (c ≠ '"' ∧ c ≠ '\\' ∧ ¬c < ' ' ∧ c.toNat < 0x10000 ∧ escaped c = [c]) ∨
      escaped c = (units c).flatMap unitEscape := by
  by_cases hshort : ∃ p ∈ shortEscapes.filter (·.1 != '/'), p.2 = c
  · have hall : ∀ p ∈ shortEscapes.filter (·.1 != '/'), shortEscapes.lookup p.1 = some p.2 ∧
        p.1 ≠ 'u' ∧ p.2.toNat < 0x10000 ∧ escaped p.2 = ['\\', p.1] := by decide
    obtain ⟨p, hp, rfl⟩ := hshort
    exact Or.inl ⟨p.1, hall p hp⟩
  · have hother : c ≠ '"' ∧ c ≠ '\\' ∧ c ≠ '\x08' ∧ c ≠ '\x0c' ∧ c ≠ '\n' ∧ c ≠ '\r' ∧
        c ≠ '\t' := by
      simpa [shortEscapes, eq_comm] using hshort
    obtain ⟨hquote, hslash, hback, hfeed, hline, hreturn, htab⟩ := hother
    refine Or.inr ?_
    simp only [escaped, beq_iff_eq, hquote, hslash, hback, hfeed, hline, hreturn, htab, if_false]
    split
    next hplain =>
      have htilde : c.toNat ≤ 126 := hplain.2
      exact Or.inl ⟨hquote, hslash, Char.not_lt.2 hplain.1, by omega, rfl⟩
    next =>
      refine Or.inr ?_
      unfold units
      split <;> simp

theorem tokensFrom_escaped (c : Char) (read : List Nat) (cs : List Char) :
    tokensFrom (.plain read) (escaped c ++ cs) =
      tokensFrom (.plain ((units c).reverse ++ read)) cs := by
  have hunits : ∀ (ns : List Nat) (read : List Nat), (∀ n ∈ ns, n < 0x10000) →
      tokensFrom (.plain read) (ns.flatMap unitEscape ++ cs) =
        tokensFrom (.plain (ns.reverse ++ read)) cs := by
    intro ns
    induction ns with
    | nil => exact fun _ _ => rfl
    | cons n ns ih =>
      intro read hns
      rw [List.flatMap_cons, List.append_assoc, tokensFrom_unitEscape (hns n List.mem_cons_self),
        ih _ fun m hm => hns m (List.mem_cons_of_mem _ hm), List.reverse_cons, List.append_assoc,
        List.singleton_append]
  rcases escaped_cases c with ⟨d, hd, hu, hsmall, heq⟩ | ⟨hquote, hslash, hcontrol, hsmall, heq⟩ |
    heq
  · have hescape : Lexer.step (.plain read) '\\' = some ([], .escape read) := rfl
    have hshort : Lexer.step (.escape read) d = some ([], .plain (c.toNat :: read)) := by
      simp [Lexer.step, hd, hu]
    rw [heq, units, if_pos hsmall, List.cons_append, tokensFrom_step hescape, List.singleton_append,
      tokensFrom_step hshort]
    rfl
  · have hplain : Lexer.step (.plain read) c = some ([], .plain (c.toNat :: read)) := by
      simp [Lexer.step, hquote, hslash, hcontrol]
    rw [heq, units, if_pos hsmall, List.singleton_append, tokensFrom_step hplain]
    rfl
  · rw [heq, hunits _ _ fun n => lt_of_mem_units]

/-- The units of a character are joined to it. -/
theorem joinedFrom_units (c : Char) (later : List Nat) :
    joinedFrom none (units c ++ later) = (joinedFrom none later).map (c :: ·) := by
  have hvalid : c.toNat < 0xD800 ∨ 0xDFFF < c.toNat ∧ c.toNat < 0x110000 := c.valid
  unfold units
  split
  next hsmall =>
    have hhigh : isHighSurrogate c.toNat = false := by simp [isHighSurrogate]; omega
    have hlow : isLowSurrogate c.toNat = false := by simp [isLowSurrogate]; omega
    simp [joinedFrom, hhigh, hlow, Char.ofNat_toNat]
  next hlarge =>
    have hhigh : isHighSurrogate (0xD800 + (c.toNat - 0x10000) / 0x400) := by
      simp [isHighSurrogate]; omega
    have hlow : isLowSurrogate (0xDC00 + (c.toNat - 0x10000) % 0x400) := by
      simp [isLowSurrogate]; omega
    have hvalue : 0x10000 + (0xD800 + (c.toNat - 0x10000) / 0x400 - 0xD800) * 0x400 +
        (0xDC00 + (c.toNat - 0x10000) % 0x400 - 0xDC00) = c.toNat := by omega
    simp only [List.cons_append, List.nil_append, joinedFrom, hhigh, hlow, hvalue, if_true,
      Char.ofNat_toNat]

/-- A written string is one token. -/
theorem tokensFrom_writeString (s : String) :
    tokensFrom .between (writeString s) = some [.text s] := by
  have hread : ∀ (cs : List Char) (read : List Nat),
      tokensFrom (.plain read) (cs.flatMap escaped ++ ['"']) =
        (joined (read.reverse ++ cs.flatMap units)).map fun s => [.text s] := by
    intro cs
    induction cs with
    | nil => 
      intro read
      cases hjoined : joined read.reverse <;> simp [tokensFrom, Lexer.step, Lexer.finish, hjoined]
    | cons c cs ih =>
      intro read
      rw [List.flatMap_cons, List.append_assoc, tokensFrom_escaped, ih, List.reverse_append,
        List.reverse_reverse, List.append_assoc, List.flatMap_cons]
  have hjoined : ∀ cs : List Char, joinedFrom none (cs.flatMap units) = some cs := by
    intro cs
    induction cs with
    | nil => rfl
    | cons c cs ih => rw [List.flatMap_cons, joinedFrom_units, ih, Option.map_some]
  have hopen : Lexer.step .between '"' = some ([], .plain []) := rfl
  rw [writeString, List.cons_append, tokensFrom_step hopen, hread, List.reverse_nil,
    List.nil_append, joined, hjoined, Option.map_some, Option.map_some, String.ofList_toList]

/-! ## Lexing -/

theorem tokensFrom_delimiter {c : Char} {mark : List Token} (h : delimiter? c = some mark)
    (cs : List Char) :
    tokensFrom .between (c :: cs) = (tokensFrom .between cs).map (mark ++ ·) := by
  simp [tokensFrom, Lexer.step, h]

/-- Before a delimiter a text can be cut. -/
theorem tokensFrom_append {state : Lexer} {cs cs' : List Char} {ts ts' : List Token}
    (hcut : ∀ c ∈ cs'.head?, (delimiter? c).isSome) (h : tokensFrom state cs = some ts)
    (h' : tokensFrom .between cs' = some ts') :
      tokensFrom state (cs ++ cs') = some (ts ++ ts') := by
  induction cs generalizing state ts with
  | nil =>
    cases cs' with
    | nil =>
      obtain rfl := Option.some.inj h'
      rw [List.append_nil, List.append_nil, h]
    | cons c cs' =>
      obtain ⟨mark, hmark⟩ := Option.isSome_iff_exists.1 (hcut c rfl)
      cases state with
      | between =>
        obtain rfl := Option.some.inj h
        exact h'
      | word read =>
        obtain rfl := Option.some.inj h
        rw [tokensFrom_delimiter hmark] at h'
        obtain ⟨later, hlater, rfl⟩ := Option.map_eq_some_iff.1 h'
        simp [tokensFrom, Lexer.step, hmark, hlater]
      | plain | escape | number => cases h
  | cons c cs ih =>
    obtain ⟨next, hnext, hlater⟩ := Option.bind_eq_some_iff.1 h
    obtain ⟨later, hrest, rfl⟩ := Option.map_eq_some_iff.1 hlater
    rw [List.cons_append, tokensFrom, hnext, Option.bind_some, ih hrest, Option.map_some,
      List.append_assoc]

/-- The characters of a word end no word and begin no string. -/
def isWordChar (c : Char) : Bool :=
  (delimiter? c).isNone && c != '"'

theorem tokensFrom_word {w : List Char} (hne : w ≠ []) (h : ∀ c ∈ w, isWordChar c) :
    tokensFrom .between w = some [.word w] := by
  have hread : ∀ (cs read : List Char), (∀ c ∈ cs, isWordChar c) →
      tokensFrom (.word read) cs = some [.word (read.reverse ++ cs)] := by
    intro cs
    induction cs with
    | nil => simp [tokensFrom, Lexer.finish]
    | cons c cs ih =>
      intro read hcs
      have hc := hcs c List.mem_cons_self
      simp only [isWordChar, Bool.and_eq_true, Option.isNone_iff_eq_none, bne_iff_ne] at hc
      have hstep : Lexer.step (.word read) c = some ([], .word (c :: read)) := by
        simp [Lexer.step, hc.1, hc.2]
      rw [tokensFrom_step hstep, ih _ fun a ha => hcs a (List.mem_cons_of_mem _ ha),
        List.reverse_cons, List.append_assoc, List.singleton_append]
  obtain ⟨c, cs, rfl⟩ := List.exists_cons_of_ne_nil hne
  have hc := h c List.mem_cons_self
  simp only [isWordChar, Bool.and_eq_true, Option.isNone_iff_eq_none, bne_iff_ne] at hc
  have hstep : Lexer.step .between c = some ([], .word [c]) := by
    simp [Lexer.step, hc.1, hc.2]
  rw [tokensFrom_step hstep, hread _ _ fun a ha => h a (List.mem_cons_of_mem _ ha)]
  rfl

theorem tokensFrom_newLine (indent depth : Nat) (cs : List Char) :
    tokensFrom .between (newLine indent depth ++ cs) = tokensFrom .between cs := by
  have hblanks : ∀ n, tokensFrom .between (List.replicate n ' ' ++ cs) =
      tokensFrom .between cs := by
    intro n
    induction n with
    | zero => rfl
    | succ n ih =>
      have hblank : Lexer.step .between ' ' = some ([], .between) := rfl
      rw [List.replicate_succ, List.cons_append, tokensFrom_step hblank, ih]
  have hline : Lexer.step .between '\n' = some ([], .between) := rfl
  rw [newLine, List.cons_append, tokensFrom_step hline, hblanks]

section Group

variable {α : Type} {written : α → List Char} {read : α → List Token} (indent depth : Nat)
  {closing : Char} {mark : Token}

/-- What stands in a group behind an item. -/
def laterItems (indent depth : Nat) (closing : Char) (items : List (List Char)) : List Char :=
  items.flatMap ((',' :: newLine indent (depth + 1)) ++ ·) ++ (newLine indent depth ++ [closing])

theorem isSome_delimiter?_laterItems (items : List (List Char)) :
    ∀ c ∈ (laterItems indent depth closing items).head?, (delimiter? c).isSome := by
  intro c hc
  cases items with
  | nil =>
    obtain rfl : '\n' = c := Option.some.inj hc
    rfl
  | cons item items =>
    obtain rfl : ',' = c := Option.some.inj hc
    rfl

theorem tokensFrom_laterItems (hclosing : delimiter? closing = some [mark]) (items : List α)
    (h : ∀ a ∈ items, tokensFrom .between (written a) = some (read a)) :
    tokensFrom .between (laterItems indent depth closing (items.map written)) =
      some ((items.map read).flatMap ([.comma] ++ ·) ++ [mark]) := by
  induction items with
  | nil =>
    rw [laterItems, List.map_nil, List.flatMap_nil, List.nil_append, tokensFrom_newLine,
      tokensFrom_delimiter hclosing]
    rfl
  | cons a items ih =>
    have hcomma : delimiter? ',' = some [.comma] := rfl
    have hlater := ih fun b hb => h b (List.mem_cons_of_mem _ hb)
    have heq : laterItems indent depth closing ((a :: items).map written) =
        ',' :: (newLine indent (depth + 1) ++
          (written a ++ laterItems indent depth closing (items.map written))) := by
      simp [laterItems]
    rw [heq, tokensFrom_delimiter hcomma, tokensFrom_newLine,
      tokensFrom_append (isSome_delimiter?_laterItems _ _ _) (h a List.mem_cons_self) hlater]
    simp

theorem tokensFrom_writeGroup {opening : Char} {mark' : Token} (items : List α)
    (hopening : delimiter? opening = some [mark']) (hclosing : delimiter? closing = some [mark])
    (h : ∀ a ∈ items, tokensFrom .between (written a) = some (read a)) :
    tokensFrom .between (writeGroup indent depth opening closing (items.map written)) =
      some (mark' :: [.comma].intercalate (items.map read) ++ [mark]) := by
  cases items with
  | nil =>
    rw [writeGroup, List.map_nil, List.isEmpty_nil, if_pos rfl, tokensFrom_delimiter hopening,
      tokensFrom_delimiter hclosing]
    rfl
  | cons a items =>
    have hlater := tokensFrom_laterItems indent depth hclosing items
      fun b hb => h b (List.mem_cons_of_mem _ hb)
    have heq : writeGroup indent depth opening closing ((a :: items).map written) =
        opening :: (newLine indent (depth + 1) ++
          (written a ++ laterItems indent depth closing (items.map written))) := by
      simp [writeGroup, laterItems, intercalate_cons_eq]
    rw [heq, tokensFrom_delimiter hopening, tokensFrom_newLine,
      tokensFrom_append (isSome_delimiter?_laterItems _ _ _) (h a List.mem_cons_self) hlater,
      List.map_cons, intercalate_cons_eq]
    simp

end Group

/-! ## Numbers -/

/-- There is no zero in front. -/
theorem exists_toDigits_eq_cons (n : Nat) (hn : n ≠ 0) :
    ∃ c cs, Nat.toDigits 10 n = c :: cs ∧ c ≠ '0' := by
  induction n using Nat.strongRecOn with
  | _ n ih =>
    rcases Nat.lt_or_ge n 10 with hlt | hge
    · exact ⟨n.digitChar, [], Nat.toDigits_of_lt_base hlt, mt Nat.digitChar_eq_zero.1 hn⟩
    · obtain ⟨c, cs, heq, hc⟩ := ih (n / 10) (by omega) (by omega)
      exact ⟨c, cs ++ [(n % 10).digitChar],
        by rw [Nat.toDigits_of_base_le (by decide) hge, heq, List.cons_append], hc⟩

theorem natural?_toDigits (n : Nat) : natural? (Nat.toDigits 10 n) = some n := by
  have hdigits : (Nat.toDigits 10 n).all Char.isDigit :=
    List.all_eq_true.2 fun c => Nat.isDigit_of_mem_toDigits (by decide) (by decide)
  have hfront : ((Nat.toDigits 10 n).head? != some '0' || (Nat.toDigits 10 n).length == 1) := by
    by_cases hn : n = 0
    · subst hn
      rfl
    · obtain ⟨c, cs, heq, hc⟩ := exists_toDigits_eq_cons n hn
      simp [heq, hc]
  have hne : (Nat.toDigits 10 n).isEmpty = false := List.isEmpty_eq_false_iff.2 Nat.toDigits_ne_nil
  simp only [natural?, hne, hdigits, hfront, Bool.not_false, Bool.and_self, if_true,
    Nat.ofDigitChars_ten_toDigits]

theorem integer?_toString : ∀ n : Int, integer? (toString n).toList = some n
  | .ofNat m => by
    have htext : (toString (Int.ofNat m)).toList = Nat.toDigits 10 m := Nat.toList_repr
    have hsign : ((Nat.toDigits 10 m).head? == some '-') = false := by
      refine beq_eq_false_iff_ne.2 fun h => ?_
      have hdigit := Nat.isDigit_of_mem_toDigits (by decide) (by decide) (List.mem_of_mem_head? h)
      exact absurd hdigit (by decide)
    rw [htext, integer?, hsign, if_neg Bool.false_ne_true, natural?_toDigits]
    rfl
  | .negSucc m => by
    have htext : (toString (Int.negSucc m)).toList = '-' :: Nat.toDigits 10 (m + 1) := by
      rw [← Nat.toList_repr]
      exact String.toList_append ..
    rw [htext, integer?, List.head?_cons, List.tail_cons, natural?_toDigits]
    rfl

theorem wordValue?_toString (n : Int) : wordValue? (toString n).toList = some (num n) := by
  have hinteger := integer?_toString n
  have hne : ∀ name ∈ ["null".toList, "true".toList, "false".toList],
      (toString n).toList ≠ name := by
    intro name hname heq
    have hnone : ∀ name ∈ ["null".toList, "true".toList, "false".toList], integer? name = none := by
      decide
    rw [heq, hnone name hname] at hinteger
    cases hinteger
  simp only [List.forall_mem_cons] at hne
  obtain ⟨hnull, htrue, hfalse, -⟩ := hne
  simp only [wordValue?, beq_eq_false_iff_ne.2 hnull, beq_eq_false_iff_ne.2 htrue,
    beq_eq_false_iff_ne.2 hfalse, hinteger, Bool.false_eq_true, if_false, Option.map_some]

theorem isWordChar_of_mem_toString (n : Int) : ∀ c ∈ (toString n).toList, isWordChar c := by
  intro c hc
  have hne : ∀ d : Char, d.isDigit = false → d ≠ '-' → (c == d) = false := by
    intro d hd hsign
    refine beq_eq_false_iff_ne.2 ?_
    rintro rfl
    exact Avoids.ofInt hd hsign n hc
  simp (disch := decide) [isWordChar, delimiter?, marks, List.lookup_cons, bne, hne]

/-! ## Reading back -/

theorem writeItems_eq_map (indent depth : Nat) (items : List JsonValue) :
    writeItems indent depth items = items.map (writeAt indent depth) := by
  induction items with
  | nil => rfl
  | cons item items ih => rw [writeItems, ih, List.map_cons]

theorem writeFields_eq_map (indent depth : Nat) (fields : List (String × JsonValue)) :
    writeFields indent depth fields =
      fields.map fun field =>
        writeString field.1 ++ ": ".toList ++ writeAt indent depth field.2 := by
  induction fields with
  | nil => rfl
  | cons field fields ih => rw [writeFields, ih, List.map_cons]

theorem itemTokens_eq_map (items : List JsonValue) : itemTokens items = items.map tokens := by
  induction items with
  | nil => rfl
  | cons item items ih => rw [itemTokens, ih, List.map_cons]

theorem fieldTokens_eq_map (fields : List (String × JsonValue)) :
    fieldTokens fields = fields.map fun field => .text field.1 :: .colon :: field.2.tokens := by
  induction fields with
  | nil => rfl
  | cons field fields ih => rw [fieldTokens, ih, List.map_cons]

theorem tokensFrom_field {indent depth : Nat} {field : String × JsonValue}
    (h : tokensFrom .between (writeAt indent depth field.2) = some field.2.tokens) :
    tokensFrom .between (writeString field.1 ++ ": ".toList ++ writeAt indent depth field.2) =
      some (.text field.1 :: .colon :: field.2.tokens) := by
  have hcolon : tokensFrom .between (": ".toList ++ writeAt indent depth field.2) =
      some (.colon :: field.2.tokens) := by
    have hmark : delimiter? ':' = some [.colon] := rfl
    have hblank : Lexer.step .between ' ' = some ([], .between) := rfl
    have hliteral : ": ".toList = [':', ' '] := rfl
    rw [hliteral, List.cons_append, tokensFrom_delimiter hmark, List.singleton_append,
      tokensFrom_step hblank, h]
    rfl
  rw [List.append_assoc, tokensFrom_append ?_ (tokensFrom_writeString field.1) hcolon]
  · rfl
  · intro c hc
    obtain rfl : ':' = c := Option.some.inj hc
    rfl

mutual

theorem tokensFrom_writeAt (indent depth : Nat) : ∀ v : JsonValue,
    tokensFrom .between (writeAt indent depth v) = some v.tokens
  | null => rfl
  | bool true => rfl
  | bool false => rfl
  | num n => by
    have hne : (toString n).toList ≠ [] := fun h => by
      have hinteger := integer?_toString n
      rw [h] at hinteger
      cases hinteger
    rw [writeAt, tokensFrom_word hne (isWordChar_of_mem_toString n), tokens]
  | str s => by
    rw [writeAt, tokensFrom_writeString, tokens]
  | arr items => by
    rw [writeAt, writeItems_eq_map, tokens, itemTokens_eq_map]
    exact tokensFrom_writeGroup indent depth items rfl rfl
      (tokensFrom_items indent (depth + 1) items)
  | obj fields => by
    rw [writeAt, writeFields_eq_map, tokens, fieldTokens_eq_map]
    exact tokensFrom_writeGroup indent depth fields rfl rfl
      (tokensFrom_fields indent (depth + 1) fields)

theorem tokensFrom_items (indent depth : Nat) : ∀ items : List JsonValue, ∀ v ∈ items,
    tokensFrom .between (writeAt indent depth v) = some v.tokens
  | [] => fun _ hv => absurd hv List.not_mem_nil
  | item :: items => List.forall_mem_cons.2
    ⟨tokensFrom_writeAt indent depth item, tokensFrom_items indent depth items⟩

theorem tokensFrom_fields (indent depth : Nat) : ∀ fields : List (String × JsonValue), ∀ f ∈ fields,
    tokensFrom .between (writeString f.1 ++ ": ".toList ++ writeAt indent depth f.2) =
      some (.text f.1 :: .colon :: f.2.tokens)
  | [] => fun _ hf => absurd hf List.not_mem_nil
  | (_, value) :: fields => List.forall_mem_cons.2
    ⟨tokensFrom_field (tokensFrom_writeAt indent depth value),
      tokensFrom_fields indent depth fields⟩

end

namespace Parser

theorem run_step {p q : Parser} {t : Token} (h : p.step t = some q) (ts : List Token) :
    p.run (t :: ts) = q.run ts := by
  rw [run, h, Option.bind_some]

theorem run_append {p q : Parser} {ts : List Token} (h : p.run ts = some q) (ts' : List Token) :
    p.run (ts ++ ts') = q.run ts' := by
  induction ts generalizing p with
  | nil =>
    obtain rfl := Option.some.inj h
    rfl
  | cons t ts ih =>
    obtain ⟨next, hnext, hlater⟩ := Option.bind_eq_some_iff.1 h
    rw [List.cons_append, run_step hnext, ih hlater]

/-- A field is read as soon as its value is. -/
theorem run_field {value : JsonValue}
    (h : ∀ stack, run ⟨stack, .value⟩ value.tokens = some ⟨stack, .had value⟩)
    (stack : List Frame) (read : List (String × JsonValue)) (name : String) (ts : List Token) :
    run ⟨stack, .name read⟩ ((.text name :: .colon :: value.tokens) ++ ts) =
      run ⟨.field read name :: stack, .had value⟩ ts := by
  have hname : step ⟨stack, .name read⟩ (.text name) = some ⟨stack, .named read name⟩ := by
    cases read <;> rfl
  have hcolon : step ⟨stack, .named read name⟩ .colon =
      some ⟨.field read name :: stack, .value⟩ := by
    cases stack <;> rfl
  rw [List.cons_append, List.cons_append, run_step hname, run_step hcolon, run_append (h _)]

mutual

/-- The tokens of a value are read as the value, whatever is open. -/
theorem run_tokens : ∀ (v : JsonValue) (stack : List Frame),
    run ⟨stack, .value⟩ v.tokens = some ⟨stack, .had v⟩
  | null, _ => rfl
  | bool true, _ => rfl
  | bool false, _ => rfl
  | num n, stack => by
    rw [tokens, run, step, wordValue?_toString]
    rfl
  | str _, _ => rfl
  | arr [], _ => rfl
  | arr (item :: items), stack => by
    have hopen : step ⟨stack, .value⟩ .openArr = some ⟨.item [] :: stack, .value⟩ := rfl
    rw [tokens, itemTokens, intercalate_cons_eq, List.cons_append, List.append_assoc,
      run_step hopen, run_append (run_tokens item _), run_laterItems items, List.reverse_nil,
      List.nil_append]
  | obj [], _ => rfl
  | obj ((name, value) :: fields), stack => by
    have hopen : step ⟨stack, .value⟩ .openObj = some ⟨stack, .name []⟩ := rfl
    rw [tokens, fieldTokens, intercalate_cons_eq, List.cons_append, List.append_assoc,
      run_step hopen, run_field (run_tokens value), run_laterFields fields, List.reverse_nil,
      List.nil_append]

theorem run_laterItems : ∀ (items : List JsonValue) (stack : List Frame) (read : List JsonValue)
    (v : JsonValue), run ⟨.item read :: stack, .had v⟩
      ((itemTokens items).flatMap ([Token.comma] ++ ·) ++ [.closeArr]) =
        some ⟨stack, .had (arr (read.reverse ++ v :: items))⟩
  | [], stack, read, v => by
    have hclose : step ⟨.item read :: stack, .had v⟩ .closeArr =
        some ⟨stack, .had (arr (v :: read).reverse)⟩ := rfl
    rw [itemTokens, List.flatMap_nil, List.nil_append, run_step hclose, List.reverse_cons]
    rfl
  | item :: items, stack, read, v => by
    have hcomma : step ⟨.item read :: stack, .had v⟩ .comma =
        some ⟨.item (v :: read) :: stack, .value⟩ :=
      rfl
    rw [itemTokens, List.flatMap_cons, List.append_assoc, List.append_assoc, List.singleton_append,
      run_step hcomma, run_append (run_tokens item _), run_laterItems items, List.reverse_cons,
      List.append_assoc, List.singleton_append]

theorem run_laterFields : ∀ (fields : List (String × JsonValue)) (stack : List Frame)
    (read : List (String × JsonValue)) (name : String) (v : JsonValue),
    run ⟨.field read name :: stack, .had v⟩
      ((fieldTokens fields).flatMap ([Token.comma] ++ ·) ++ [.closeObj]) =
        some ⟨stack, .had (obj (read.reverse ++ (name, v) :: fields))⟩
  | [], stack, read, name, v => by
    have hclose : step ⟨.field read name :: stack, .had v⟩ .closeObj =
        some ⟨stack, .had (obj ((name, v) :: read).reverse)⟩ := rfl
    rw [fieldTokens, List.flatMap_nil, List.nil_append, run_step hclose, List.reverse_cons]
    rfl
  | (name', value) :: fields, stack, read, name, v => by
    have hcomma : step ⟨.field read name :: stack, .had v⟩ .comma =
        some ⟨stack, .name ((name, v) :: read)⟩ := rfl
    rw [fieldTokens, List.flatMap_cons, List.append_assoc, List.append_assoc, List.singleton_append,
      run_step hcomma, run_field (run_tokens value), run_laterFields fields, List.reverse_cons,
      List.append_assoc, List.singleton_append]

end

end Parser

/-- What is written is read back. -/
theorem parse_text (indent : Nat) (v : JsonValue) : parse (v.text indent) = some v := by
  rw [parse, text, String.toList_ofList, tokensFrom_writeAt, Option.bind_some, ofTokens,
    Parser.run_tokens]
  rfl

end JsonValue

end ContractAudit
