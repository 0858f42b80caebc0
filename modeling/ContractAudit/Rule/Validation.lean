import ContractAudit.Rule.Sign

/-!
# Rules on validation

Addresses stored without a look at the zero address, and amounts that move value before
they are compared with anything.
-/

namespace ContractAudit

open Pattern

namespace Detector

/-! ## Zero addresses -/

/-- The whole statement assigns a parameter, or its payable form. -/
def assignedParam : Pattern :=
  stretch1 (fun c => isWordChar c || c == '.' || c == '[' || c == ']' || isBlank c) ++ "=" ++
    blanks ++ maybe ("payable" ++ blanks ++ "(" ++ blanks) ++ named "param" ident ++ blanks ++
    maybe ")" ++ blanks ++ Pattern.atEnd

/-- The address zero, as a source writes it. -/
def zeroAddress : Pattern :=
  "address" ++ blanks ++ "(" ++ blanks ++ "0" ++ maybe ("x" ++ stretch1 (· == '0')) ++ blanks ++ ")"

/-- A comparison of a name with the address zero, on either side. -/
def zeroComparison : Pattern :=
  oneOf [edge ++ named "name" Sign.wholeWord ++ blanks ++ Sign.equality ++ blanks ++ zeroAddress,
    zeroAddress ++ blanks ++ Sign.equality ++ blanks ++ named "name" Sign.wholeWord ++ edge]

/-- A part of the name of a modifier that checks an address, in any case. -/
def zeroModifier : Pattern :=
  oneOfAnyCase ["zero", "valid", "nonnull"]

/-- The names compared with the zero address anywhere in a member. -/
def zeroChecked (b : Block) : List String :=
  b.statements.flatMap fun s =>
    (zeroComparison.allIn s.chars).map fun h => String.ofList (h.part "name")

/-- The names of the parameters whose type starts with the given word. -/
def paramsOfType (b : Block) (word : String) : List String :=
  b.params.filterMap fun p => if word.toList.isPrefixOf p.typeText.toList then p.name else none

/-- An address from the caller that is stored without a check. -/
def missingZeroAddressCheck : Detector :=
  eachParsed fun _ b => pure <|
    let addresses := paramsOfType b "address"
    if !(b.isEntryPoint || b.kind == .constructor) || b.isView ||
        b.modifiers.any (fun m => zeroModifier.occursIn m.toList) || addresses.isEmpty then []
    else
      let checked := zeroChecked b
      b.statements.filterMap fun s =>
        if s.target.isNone then none
        else
          match assignedParam.startOf? s.chars with
          | none => none
          | some h =>
            let param := String.ofList (h.part "param")
            if addresses.contains param && !checked.contains param then
              some (s.matched "missing-zero-address-check"
                s!"`{param}` stored without a zero-address check")
            else none

/-! ## Amounts -/

/-- A part of the name of a parameter that holds an amount, in any case. -/
def amountName : Pattern :=
  oneOfAnyCase ["amount", "value", "shares", "qty", "quantity", "wad"]

/-- A name that is taken off something. -/
def subtracted : Pattern :=
  "-" ++ maybe "=" ++ blanks ++ named "name" Sign.wholeWord ++ edge

/-- The amounts among the parameters of a member, in order and each once. -/
def amounts (b : Block) : List String :=
  ((paramsOfType b "uint").filter fun n => amountName.occursIn n.toList).eraseDups.mergeSort
    fun a b => decide (a ≤ b)

/-- The statement compares something before it goes on. -/
def isComparing (s : Statement) : Bool :=
  s.isBranching && s.shows Sign.comparison

/-- Does the statement move an amount : send value out, or subtract it from the state? Any target
counts as a part of the state, for no outline has an empty one. -/
def moves (s : Statement) (amount : String) : Bool :=
  (s.isExternalCall && s.shows Sign.valueOut) ||
    (s.target.isSome && (subtracted.allIn s.chars).any fun h =>
      String.ofList (h.part "name") == amount)

/-- The matches in the given statements, `pending` being the amounts that have been neither
compared nor moved, behind those already `found` (kept reversed). -/
def amountsFrom (found : List Match) (pending : List String) : List Statement → List Match
  | [] => found.reverse
  | s :: later =>
    if pending.isEmpty then found.reverse
    else
      let inStatement := Sign.wordsOf s.chars
      let used := pending.filter inStatement.contains
      if used.isEmpty then amountsFrom found pending later
      else if isComparing s then
        amountsFrom found (pending.filter fun n => !used.contains n) later
      else
        let moved := used.filter (moves s)
        let new := moved.map fun n =>
          s.matched "missing-amount-validation" s!"`{n}` is used before any balance or bounds check"
        amountsFrom (new.reverse ++ found) (pending.filter fun n => !moved.contains n) later

/-- An amount from the caller that moves value before it is compared with anything. -/
def missingAmountValidation : Detector :=
  eachEntryPoint fun _ b => pure (amountsFrom [] (amounts b) b.statements)

end Detector

end ContractAudit
