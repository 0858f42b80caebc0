import ContractAudit.Proofs.JsonReader
import ContractAudit.Report.Json

/-!
# Reading a report in JSON

The fields of a report in JSON tell which report it is (`Report.toJson_inj`), and its text is read
back as these fields (`JsonValue.parse_text`). So two reports with the same text are the same. There
is a text just if the width of the indentation is an index and no number of the report has too many
digits.
-/

namespace ContractAudit

open JsonValue

/-! ## Fields -/

@[simp]
theorem Severity.name_inj {s t : Severity} : s.name = t.name ↔ s = t := by
  cases s <;> cases t <;> simp [name]

@[simp]
theorem Category.name_inj {c d : Category} : c.name = d.name ↔ c = d := by
  cases c <;> cases d <;> simp [name]

@[simp]
theorem GasImpact.name_inj {g g' : GasImpact} : g.name = g'.name ↔ g = g' := by
  cases g <;> cases g' <;> simp [name]

@[simp]
theorem JsonValue.ofOption_inj {s t : Option String} : ofOption s = ofOption t ↔ s = t := by
  cases s <;> cases t <;> simp [ofOption]

@[simp]
theorem JsonValue.ofStrings_inj {ss ts : List String} : ofStrings ss = ofStrings ts ↔ ss = ts := by
  rw [ofStrings, ofStrings, arr.injEq, List.map_inj_right fun _ _ => str.inj]

theorem Finding.toJson_inj {f f' : Finding} (h : f.toJson = f'.toJson) : f = f' := by
  obtain ⟨⟨id, title, category, severity, gas, description, remediation, swc⟩, start, stop,
    ⟨line, column⟩, ⟨endLine, endColumn⟩, snippet, evidence⟩ := f
  obtain ⟨⟨id', title', category', severity', gas', description', remediation', swc'⟩, start',
    stop', ⟨line', column'⟩, ⟨endLine', endColumn'⟩, snippet', evidence'⟩ := f'
  simp only [toJson, obj.injEq, List.cons.injEq, Prod.mk.injEq, str.injEq, num.injEq, true_and,
    Severity.name_inj, Category.name_inj, GasImpact.name_inj, ofOption_inj] at h
  grind

theorem RuleError.toJson_inj {e e' : RuleError} (h : e.toJson = e'.toJson) : e = e' := by
  cases e
  cases e'
  simpa [toJson] using h

theorem Unparsable.toJson_inj {u u' : Unparsable} (h : u.toJson = u'.toJson) : u = u' := by
  cases u
  cases u'
  simpa [toJson] using h

theorem Metadata.toJson_inj {m m' : Metadata} (h : m.toJson = m'.toJson) : m = m' := by
  cases m
  cases m'
  simpa [toJson, List.map_inj_right fun _ _ => RuleError.toJson_inj,
    List.map_inj_right fun _ _ => Unparsable.toJson_inj] using h

theorem Tally.toJson_inj {t t' : Tally} (h : Tally.toJson t = Tally.toJson t') : t = t' := by
  have hentry : ∀ e e' : String × Int, (e.1, num e.2) = (e'.1, num e'.2) → e = e' := by
    simp [Prod.ext_iff]
  exact (List.map_inj_right hentry).1 (obj.inj h)

namespace Report

/-- The fields of a report tell which report it is. -/
theorem toJson_inj {r r' : Report} (h : r.toJson = r'.toJson) : r = r' := by
  obtain ⟨findings, score, riskLabel, categories, severities, metadata⟩ := r
  obtain ⟨findings', score', riskLabel', categories', severities', metadata'⟩ := r'
  simp only [toJson, fields, obj.injEq, List.cons.injEq, Prod.mk.injEq, str.injEq, num.injEq,
    arr.injEq, true_and, and_true, List.map_inj_right fun _ _ => Finding.toJson_inj] at h
  obtain ⟨rfl, rfl, ⟨-, hcategories, hseverities⟩, rfl, hmetadata⟩ := h
  rw [Tally.toJson_inj hcategories, Tally.toJson_inj hseverities, Metadata.toJson_inj hmetadata]

/-! ## Texts -/

theorem json_eq_ok_iff {r : Report} {indent : Int} {text : String} :
    r.json indent = .ok text ↔
      isIndex indent ∧ r.toJson.fits ∧ text = r.toJson.text indent.toNat := by
  constructor
  · intro h
    unfold json JsonValue.write at h
    split at h
    next => cases h
    next hindex =>
      split at h
      next hfits => exact ⟨by simpa using hindex, hfits, (Except.ok.inj h).symm⟩
      next => cases h
  · rintro ⟨hindex, hfits, rfl⟩
    unfold json JsonValue.write
    rw [hindex, Bool.not_true, if_neg Bool.false_ne_true, if_pos hfits]
    rfl

/-- A report of numbers that are short enough has a text with any indentation whose width is an
index. The text is read back as the fields of the report, and no other report has it. -/
theorem json_reads_back (r : Report) (indent : Int) :
    ((∃ text, r.json indent = .ok text) ↔ isIndex indent ∧ r.toJson.fits) ∧
      ∀ text, r.json indent = .ok text → parse text = some r.toJson ∧
        ∀ (r' : Report) (indent' : Int), r'.json indent' = .ok text → r' = r := by
  have hread : ∀ (r : Report) (indent : Int) (text : String), r.json indent = .ok text →
      parse text = some r.toJson := by
    intro r indent text h
    obtain ⟨-, -, rfl⟩ := json_eq_ok_iff.1 h
    exact parse_text _ _
  refine ⟨⟨?_, ?_⟩, fun text h => ⟨hread r indent text h, fun r' indent' h' => ?_⟩⟩
  · rintro ⟨text, h⟩
    obtain ⟨hindex, hfits, -⟩ := json_eq_ok_iff.1 h
    exact ⟨hindex, hfits⟩
  · rintro ⟨hindex, hfits⟩
    exact ⟨_, json_eq_ok_iff.2 ⟨hindex, hfits, rfl⟩⟩
  · have hsame := (hread r' indent' text h').symm.trans (hread r indent text h)
    exact toJson_inj (Option.some.inj hsame)

/-- A report with one finding, on a text at the given place. -/
def onText (s : String) (start : Int) : Report where
  findings := [⟨⟨s, s, .other, .low, .absent, s, s, none⟩, start, 9, ⟨1, 1⟩, ⟨2, 5⟩, s, some s⟩]
  score := 1
  riskLabel := s
  categories := [(s, 1)]
  severities := []
  metadata := ⟨0, 0, 0, 1, 1, 0, 0, false, true, [⟨s, ""⟩], [⟨s, s, -1, s⟩], []⟩

theorem onText_reads_back :
    ∃ text, (onText "\"\\\n\x07/é😀" (-3)).json 0 = .ok text ∧
      parse text = some (onText "\"\\\n\x07/é😀" (-3)).toJson := by
  obtain ⟨hwritten, hread⟩ := json_reads_back (onText "\"\\\n\x07/é😀" (-3)) 0
  obtain ⟨text, htext⟩ := hwritten.2 ⟨by decide, by decide +kernel⟩
  exact ⟨text, htext, (hread text htext).1⟩

/-- The digits of an offset are too many, or the indentation is one wider than the widest index. -/
theorem onText_overlong :
    (¬∃ text, (onText "x" (Int.pow 10 4300)).json 2 = .ok text) ∧
      ¬∃ text, (onText "x" 0).json 9223372036854775808 = .ok text := by
  refine ⟨?_, ?_⟩
  · rintro ⟨text, h⟩
    exact absurd (json_eq_ok_iff.1 h).2.1 (by decide +kernel)
  · rintro ⟨text, h⟩
    exact absurd (json_eq_ok_iff.1 h).1 (by decide)

end Report

end ContractAudit
