import ContractAudit.Proofs.Command.Disk
import ContractAudit.Proofs.Text.Split
import ContractAudit.Report.Files

/-!
# The files of reports

The files of a report are named for the time, the stem of the source and the format, and each of the
three can be told from the name (`reportFile_inj`). So reports on sources of different stems never
share a file, whenever they are written, and reports on sources of one stem share their files if
they are written within one second (`baseName_eq_iff`). A file in a directory has a place of its own
there (`place_ne_place`).
-/

namespace ContractAudit

/-! ## Names -/

/-- What tells the source in the names of the files of its report. -/
def reportStem (sourceName : String) : List Char :=
  let stem := withoutExtension (fileName sourceName.toList)
  if stem.isEmpty then "source".toList else stem

/-- The name of a report's file in a format. -/
def reportFile (sourceName time : String) (format : Format) : String :=
  baseName sourceName time ++ format.extension

theorem toList_baseName (sourceName time : String) :
    (baseName sourceName time).toList =
      "scan-".toList ++ (time.toList.map fun c => if c == ':' then '-' else c) ++ ['-'] ++
        reportStem sourceName :=
  String.toList_ofList

/-- At one time the names differ as the stems do. -/
theorem baseName_eq_iff (p q time : String) :
    baseName p time = baseName q time ↔ reportStem p = reportStem q := by
  rw [← String.toList_inj, toList_baseName, toList_baseName, List.append_cancel_left_eq]

variable {c : Char}

/-- What stands behind the first `c` of a text. -/
theorem append_cons_inj {front front' rest rest' : List Char} (hc : c ∉ front) (hc' : c ∉ front')
    (h : front ++ c :: rest = front' ++ c :: rest') : rest = rest' := by
  have hskip : ∀ {front rest : List Char}, c ∉ front →
      (front ++ c :: rest).dropWhile (· != c) = c :: rest := by
    intro front rest hfront
    have hall : ∀ d ∈ front, d != c := fun d hd => bne_iff_ne.2 fun heq => hfront (heq ▸ hd)
    rw [List.dropWhile_append_of_pos hall, List.dropWhile_cons_of_neg (by simp)]
  have heq : c :: rest = c :: rest' := by rw [← hskip hc, h, hskip hc']
  exact (List.cons.inj heq).2

theorem Avoids.padded (hc : c.isDigit = false) (width n : Nat) : Avoids c (padded width n) := by
  rw [Avoids, ContractAudit.padded, String.toList_ofList, List.mem_append, not_or]
  refine ⟨fun h => ?_, Avoids.ofNat hc n⟩
  rw [(List.mem_replicate.1 h).2] at hc
  cases hc

/-- The text of a time ends with its only `Z`. -/
theorem Moment.exists_text_eq (m : Moment) : ∃ front, m.text = front ++ "Z" ∧
    ∀ c : Char, c.isDigit = false → c ∉ ['-', 'T', ':'] → Avoids c front := by
  refine ⟨_, rfl, fun c hdigit hc => ?_⟩
  have hpadded : ∀ width n, Avoids c (padded width n) := Avoids.padded hdigit
  have hmark : ∀ d ∈ ['-', 'T', ':'], Avoids c (String.ofList [d]) := fun d hd =>
    Avoids.literal (by rintro h; rw [List.mem_singleton.1 h] at hc; exact hc hd)
  simp only [List.forall_mem_cons] at hmark
  obtain ⟨hdash, hT, hcolon, -⟩ := hmark
  exact ((((((((((hpadded _ _).append hdash).append (hpadded _ _)).append hdash).append
    (hpadded _ _)).append hT).append (hpadded _ _)).append hcolon).append (hpadded _ _)).append
    hcolon).append (hpadded _ _)

/-- A colon of the time is written as a dash in names. -/
theorem mem_stamp {cs : List Char} (hc : c ≠ '-') :
    c ∈ cs.map (fun c => if c == ':' then '-' else c) → c ∈ cs := by
  intro h
  obtain ⟨d, hd, hdc⟩ := List.mem_map.1 h
  split at hdc
  · exact absurd hdc.symm hc
  · exact hdc ▸ hd

/-- The name tells the stem of the source, at whatever time. -/
theorem reportStem_of_baseName {p q : String} {now now' : Moment}
    (h : baseName p now.text = baseName q now'.text) : reportStem p = reportStem q := by
  have hname : ∀ (sourceName : String) (now : Moment), ∃ front, 'Z' ∉ front ∧
      (baseName sourceName now.text).toList = front ++ 'Z' :: '-' :: reportStem sourceName := by
    intro sourceName now
    obtain ⟨front, htext, havoids⟩ := now.exists_text_eq
    refine ⟨"scan-".toList ++ front.toList.map fun c => if c == ':' then '-' else c, ?_, ?_⟩
    · rw [List.mem_append, not_or]
      exact ⟨by decide, mt (mem_stamp (by decide)) (havoids 'Z' rfl (by decide))⟩
    · rw [toList_baseName, htext]
      simp
  obtain ⟨front, hfront, heq⟩ := hname p now
  obtain ⟨front', hfront', heq'⟩ := hname q now'
  have hrest :=
    append_cons_inj hfront hfront' (heq.symm.trans ((congrArg String.toList h).trans heq'))
  exact (List.cons.inj hrest).2

/-- The name of a file tells the stem of the source and the format. -/
theorem reportFile_inj {p q : String} {now now' : Moment} {format format' : Format}
    (h : reportFile p now.text format = reportFile q now'.text format') :
    reportStem p = reportStem q ∧ format = format' := by
  rw [reportFile, reportFile, ← String.toList_inj, String.toList_append, String.toList_append] at h
  have hformat : format = format' := by
    have hlast := congrArg List.getLast? h
    cases format <;> cases format' <;> simp [Format.extension] at hlast ⊢
  subst hformat
  exact ⟨reportStem_of_baseName (String.toList_inj.1 (List.append_cancel_right h)), rfl⟩

theorem mem_of_mem_withoutExtension {name : List Char} (h : c ∈ withoutExtension name) :
    c ∈ name := by
  unfold withoutExtension at h
  dsimp only at h
  split at h
  · rcases List.mem_append.1 h with h | h
    · exact (List.takeWhile_prefix _).subset h
    · have hrest := List.mem_of_mem_drop (List.mem_reverse.1 h)
      exact (List.dropWhile_suffix _).subset
        (List.mem_reverse.1 ((List.dropWhile_suffix _).subset hrest))
  · exact h

theorem slash_not_mem_reportStem (sourceName : String) : '/' ∉ reportStem sourceName := by
  have hname : '/' ∉ fileName sourceName.toList := fun h => by
    have hslash := List.all_eq_true.1 List.all_takeWhile _ (List.mem_reverse.1 h)
    simp at hslash
  unfold reportStem
  dsimp only
  split
  · decide
  · exact fun h => hname (mem_of_mem_withoutExtension h)

theorem avoids_reportFile (sourceName : String) (now : Moment) (format : Format) :
    Avoids '/' (reportFile sourceName now.text format) := by
  obtain ⟨front, htext, havoids⟩ := now.exists_text_eq
  have htime : Avoids '/' now.text :=
    htext ▸ (havoids '/' rfl (by decide)).append (.literal (by decide))
  have hbase : Avoids '/' (baseName sourceName now.text) := by
    rw [Avoids, toList_baseName]
    simp only [List.mem_append, not_or]
    exact ⟨⟨⟨by decide, mt (mem_stamp (by decide)) htime⟩, by decide⟩, slash_not_mem_reportStem _⟩
  refine hbase.append ?_
  cases format <;> exact .literal (by decide)

theorem isEntryName_reportFile (sourceName time : String) (format : Format) :
    IsEntryName (reportFile sourceName time format) := by
  have hhead : ∀ name : String, reportFile sourceName time format = name →
      name.toList.head? = some 's' := by
    rintro name rfl
    rw [reportFile, String.toList_append, toList_baseName]
    rfl
  exact ⟨fun h => absurd (hhead _ h) (by decide), fun h => absurd (hhead _ h) (by decide),
    fun h => absurd (hhead _ h) (by decide)⟩

theorem Format.path_eq (format : Format) (directory sourceName time : String) :
    format.path directory sourceName time =
      inDirectory directory (reportFile sourceName time format) := by
  unfold path inDirectory reportFile
  split <;> simp only [String.append_assoc]

theorem inDirectory_ne_empty {name : String} (h : name ≠ "") (directory : String) :
    inDirectory directory name ≠ "" := by
  unfold inDirectory
  split <;> simp [h]

/-! ## Places -/

theorem splitAt_name {name : String} (h : Avoids '/' name) :
    splitAt (· == '/') name.toList = [name.toList] :=
  splitAt_eq_singleton fun _ hc => beq_eq_false_iff_ne.2 fun heq => h (heq ▸ hc)

theorem exists_toList_inDirectory {directory : String} (h : directory ≠ "") :
    ∃ front, ∀ name, (inDirectory directory name).toList = front ++ '/' :: name.toList := by
  have hempty : directory.isEmpty = false := by simpa [String.isEmpty_iff] using h
  by_cases hslash : directory.toList.getLast? = some '/'
  · obtain ⟨front, hfront⟩ := List.getLast?_eq_some_iff.1 hslash
    refine ⟨front, fun name => ?_⟩
    rw [inDirectory, hempty, hslash, if_pos (by simp), String.toList_append, hfront,
      List.append_assoc, List.singleton_append]
  · refine ⟨directory.toList, fun name => ?_⟩
    rw [inDirectory, if_neg (by simp [hempty, hslash])]
    simp

/-- The names that lead to a file in a directory are those that lead to the directory, and its
own. -/
theorem exists_names_inDirectory (t : FileTree) (directory : String) :
    ∃ names, ∀ name, Avoids '/' name →
      t.origin (inDirectory directory name) ++ pathNames (inDirectory directory name) =
        names ++ [name] := by
  by_cases hempty : directory = ""
  · refine ⟨t.home, fun name hname => ?_⟩
    have hpath : inDirectory directory name = name := by
      simp [inDirectory, hempty]
    have hhead : (name.toList.head? == some '/') = false :=
      beq_eq_false_iff_ne.2 fun h => hname (List.mem_of_mem_head? h)
    rw [hpath, FileTree.origin, hhead, if_neg Bool.false_ne_true, pathNames, splitAt_name hname]
    simp
  · obtain ⟨front, hfront⟩ := exists_toList_inDirectory hempty
    refine ⟨(if (front ++ ['/']).head? == some '/' then [] else t.home) ++
      (splitAt (· == '/') front).map String.ofList, fun name hname => ?_⟩
    have hhead : (front ++ '/' :: name.toList).head? = (front ++ ['/']).head? := by
      cases front <;> rfl
    rw [FileTree.origin, pathNames, hfront, hhead, splitAt_append_cons (by simp),
      splitAt_name hname, List.map_append, List.append_assoc]
    simp

theorem place_ne_place {t : FileTree} {directory name name' : String} (hslash : Avoids '/' name)
    (hslash' : Avoids '/' name') (hentry : IsEntryName name) (hentry' : IsEntryName name')
    (hne : name ≠ name') {place : List String}
    (h : t.place (inDirectory directory name) = .ok place) :
    t.place (inDirectory directory name') ≠ .ok place := by
  intro h'
  obtain ⟨names, hnames⟩ := exists_names_inDirectory t directory
  rw [FileTree.place, hnames name hslash] at h
  rw [FileTree.place, hnames name' hslash'] at h'
  obtain ⟨front, -, rfl⟩ := follow_concat hentry h
  obtain ⟨front', -, heq⟩ := follow_concat hentry' h'
  exact hne (List.cons.inj heq).1

end ContractAudit
