import ContractAudit.Proofs.Contract.Outline

/-!
# Where a parsed member lies

A parsed member starts at its keyword, its body lies behind the keyword between two matched braces
of the text, and its statements account for the body (`Block.LiesIn`). So does every parsed member
of an outline (`Outline.exists_liesIn`).
-/

namespace ContractAudit

open Pattern

variable {text : List Char} {b : Block}

theorem opens_contractWord : contractWord.Opens (!isBlank ·) := by
  refine opens_oneOf fun p hp => ?_
  simp only [List.mem_cons, List.not_mem_nil, or_false] at hp
  rcases hp with rfl | rfl | rfl
  · exact ((opens_text rfl rfl).append _).maybe_append (opens_text rfl rfl)
  · exact opens_text rfl rfl
  · exact opens_text rfl rfl

theorem opens_memberWord : memberWord.Opens (!isBlank ·) := by
  refine opens_oneOf fun p hp => ?_
  simp only [List.mem_cons, List.not_mem_nil, or_false] at hp
  rcases hp with rfl | rfl | rfl | rfl | rfl <;> exact opens_text rfl rfl

/-- A declaration starts with a character that is no blank. -/
theorem opens_declaration : declaration.Opens (!isBlank ·) := by
  refine (opens_oneOf fun p hp => ?_).check_append _
  simp only [List.mem_cons, List.not_mem_nil, or_false] at hp
  rcases hp with rfl | rfl
  · exact ((opens_contractWord.named _).append _).append _
  · exact (opens_memberWord.named _).append _

/-- The member has its body between the offsets `lo` and `hi` of the text, behind its keyword. -/
structure Block.LiesIn (text : List Char) (lo hi : Nat) (b : Block) : Prop where
  body_eq : b.body = some (lo, hi)
  accounts : Body.Accounts text lo hi b.statements
  /-- At least one character of the header stands before the brace. -/
  header : b.start + 1 < lo
  solid : text[b.start]?.any (!isBlank ·)
  stop_lt : hi < text.length

theorem Outline.exists_liesIn (hb : b ∈ (Outline.of text).blocks) (hparsed : b.isParsed) :
    ∃ lo hi, b.LiesIn text lo hi := by
  obtain ⟨env, henv, hit, next, hstart, hreads, hnext, horigin, hspans⟩ := declared_of_mem hb
  obtain ⟨lo, hi, hbody, haccounts⟩ := horigin.accounts henv hparsed
  obtain ⟨hlo, hhi⟩ := hspans.inside hparsed lo hi hbody
  obtain ⟨hpeek, hlt⟩ := opens_declaration text _ _ _ _ hstart hreads
  have hle := hnext.offset_le
  refine ⟨lo, hi, hbody, haccounts, ?_, ?_, by omega⟩
  · rw [hspans.start_eq]
    omega
  · rwa [hspans.start_eq, ← hstart.peek_eq]

end ContractAudit
