import ContractAudit.Command.Run
import ContractAudit.Proofs.Report.Files

/-!
# Which files a run leaves

A run acts on a tree of files through its host (`Host.ActsOn`). To scan a file changes no report
file but those of its own stem (`spares_runFile`), and once it is scanned its four report files are
there (`saved_runFile`). So behind a run over files of different stems each of them has its reports
(`run_keeps_reports`).
-/

namespace ContractAudit

/-- The host acts on a tree of files, which is part of its state, as the tree itself does. -/
structure Host.ActsOn {σ : Type} (host : Host (StateM σ)) (tree : σ → FileTree) : Prop where
  node? : ∀ path s, ((host.disk.node? path s).1, tree (host.disk.node? path s).2) =
    FileTree.disk.node? path (tree s)
  makeDirectories : ∀ path s,
    ((host.disk.makeDirectories path s).1, tree (host.disk.makeDirectories path s).2) =
      FileTree.disk.makeDirectories path (tree s)
  write : ∀ path contents s,
    ((host.disk.write path contents s).1, tree (host.disk.write path contents s).2) =
      FileTree.disk.write path contents (tree s)
  display : ∀ item s, tree (host.display item s).2 = tree s
  now : ∀ s, tree (host.now s).2 = tree s

theorem Desk.actsOn_host (now : Moment) : (Desk.host now).ActsOn Desk.tree where
  node? _ _ := rfl
  makeDirectories _ _ := rfl
  write _ _ _ := rfl
  display _ _ := rfl
  now _ := rfl

theorem bind_apply {σ α β : Type} (act : StateM σ α) (later : α → StateM σ β) (s : σ) :
    (act >>= later) s = later (act s).1 (act s).2 :=
  rfl

/-! ## Report files -/

/-- Nothing in the directory changed but at the given names. -/
def Spares (directory : String) (changed : String → Prop) (t t' : FileTree) : Prop :=
  ∀ name node, Avoids '/' name → IsEntryName name → ¬changed name →
    t.node? (inDirectory directory name) = some node →
    t'.node? (inDirectory directory name) = some node

namespace Spares

variable {directory : String} {changed changed' : String → Prop} {t t' t'' : FileTree}

theorem refl (t : FileTree) : Spares directory changed t t :=
  fun _ _ _ _ _ h => h

theorem trans (h : Spares directory changed t t') (h' : Spares directory changed t' t'') :
    Spares directory changed t t'' :=
  fun name node hslash hentry hname hnode =>
    h' name node hslash hentry hname (h name node hslash hentry hname hnode)

theorem mono (h : Spares directory changed t t') (himp : ∀ name, changed name → changed' name) :
    Spares directory changed' t t' :=
  fun name node hslash hentry hname hnode => h name node hslash hentry (mt (himp name) hname) hnode

theorem of_grows (h : t.Grows t') : Spares directory changed t t' :=
  fun _ _ _ _ _ hnode => h.node? hnode

theorem of_write {name : String} {bytes : List UInt8} (hslash : Avoids '/' name)
    (hentry : IsEntryName name) (h : t.write (inDirectory directory name) bytes = .ok t') :
    Spares directory (· = name) t t' :=
  fun _ _ hslash' hentry' hname hnode => FileTree.node?_write_other h hnode fun _ hplace =>
    place_ne_place hslash hslash' hentry hentry' (Ne.symm hname) hplace

end Spares

/-- The report on a source is in the directory, in all formats. -/
def Saved (directory : String) (t : FileTree) (sourceName : String) (r : Report) : Prop :=
  ∃ now : Moment, ∀ format : Format, ∃ contents,
    r.contents sourceName now.text format = .ok contents ∧
    t.node? (format.path directory sourceName now.text) = some (.file contents.toUTF8.toList)

/-- A name that a file of a report on the source may have. -/
def IsReportOn (sourceName name : String) : Prop :=
  ∃ (now : Moment) (format : Format), name = reportFile sourceName now.text format

variable {σ : Type} {host : Host (StateM σ)} {tree : σ → FileTree}

theorem Host.ActsOn.write_cases (h : host.ActsOn tree) (path contents : String) (s : σ) :
    (∃ t, (tree s).write path contents.toUTF8.toList = .ok t ∧
      (host.disk.write path contents s).1 = .ok () ∧ tree (host.disk.write path contents s).2 = t) ∨
    ∃ e, (host.disk.write path contents s).1 = .error e ∧
      tree (host.disk.write path contents s).2 = tree s := by
  have hwrite := h.write path contents s
  unfold FileTree.disk at hwrite
  dsimp only at hwrite
  cases ht : (tree s).write path contents.toUTF8.toList with
  | ok t =>
    rw [ht] at hwrite
    exact Or.inl ⟨t, rfl, (Prod.mk.inj hwrite).1, (Prod.mk.inj hwrite).2⟩
  | error e =>
    rw [ht] at hwrite
    exact Or.inr ⟨e, (Prod.mk.inj hwrite).1, (Prod.mk.inj hwrite).2⟩

section Writing

variable (h : host.ActsOn tree) (r : Report) (directory sourceName : String) (now : Moment)

include h

/-- The first format is not written, is written empty because there is no text, or is written; only
then the others follow. -/
theorem writeFormats_cons_cases (format : Format) (formats : List Format) (s : σ) :
    ∃ s', (tree s' = tree s ∧ ∃ e,
        writeFormats host.disk r directory sourceName now.text (format :: formats) s =
          (.error e, s')) ∨
      (∃ bytes e, (tree s).write (format.path directory sourceName now.text) bytes = .ok (tree s') ∧
        writeFormats host.disk r directory sourceName now.text (format :: formats) s =
          (.error e, s')) ∨
      ∃ contents, r.contents sourceName now.text format = .ok contents ∧
        (tree s).write (format.path directory sourceName now.text) contents.toUTF8.toList =
          .ok (tree s') ∧
        writeFormats host.disk r directory sourceName now.text (format :: formats) s =
          writeFormats host.disk r directory sourceName now.text formats s' := by
  refine ⟨(host.disk.write (format.path directory sourceName now.text)
    ((r.contents sourceName now.text format).toOption.getD "") s).2, ?_⟩
  rw [writeFormats, bind_apply]
  rcases h.write_cases (format.path directory sourceName now.text)
    ((r.contents sourceName now.text format).toOption.getD "") s with
    ⟨t, hwrite, hok, rfl⟩ | ⟨e, herror, ht⟩
  · rw [hok]
    cases hcontents : r.contents sourceName now.text format with
    | error fault => exact Or.inr (Or.inl ⟨_, _, hcontents ▸ hwrite, rfl⟩)
    | ok contents =>
      have htext : (r.contents sourceName now.text format).toOption.getD "" = contents := by
        rw [hcontents]
        rfl
      refine Or.inr (Or.inr ⟨contents, rfl, ?_, rfl⟩)
      rw [htext] at hwrite
      exact hwrite
  · rw [herror]
    exact Or.inl ⟨ht, _, rfl⟩

/-- To write formats changes no file but those of these formats. -/
theorem spares_writeFormats (formats : List Format) (s : σ) :
    Spares directory (fun name => ∃ format ∈ formats, name = reportFile sourceName now.text format)
      (tree s) (tree (writeFormats host.disk r directory sourceName now.text formats s).2) := by
  induction formats generalizing s with
  | nil => exact Spares.refl _
  | cons format formats ih =>
    obtain ⟨s', hcases⟩ := writeFormats_cons_cases h r directory sourceName now format formats s
    have hfirst : ∀ bytes, (tree s).write (format.path directory sourceName now.text) bytes =
        .ok (tree s') → Spares directory (fun name => ∃ format' ∈ format :: formats,
          name = reportFile sourceName now.text format') (tree s) (tree s') := by
      intro bytes hwrite
      rw [Format.path_eq] at hwrite
      exact (Spares.of_write (avoids_reportFile _ _ _) (isEntryName_reportFile _ _ _) hwrite).mono
        fun name hname => ⟨format, List.mem_cons_self, hname⟩
    rcases hcases with ⟨htree, e, heq⟩ | ⟨bytes, e, hwrite, heq⟩ | ⟨contents, -, hwrite, heq⟩
    · rw [heq, htree]
      exact Spares.refl _
    · rw [heq]
      exact hfirst bytes hwrite
    · rw [heq]
      refine (hfirst _ hwrite).trans ((ih s').mono fun name hname => ?_)
      obtain ⟨format', hmem, hname⟩ := hname
      exact ⟨format', List.mem_cons_of_mem _ hmem, hname⟩

/-- Formats that are written are there. -/
theorem node?_writeFormats {formats : List Format} (hnodup : formats.Nodup) (s : σ)
    (hok : (writeFormats host.disk r directory sourceName now.text formats s).1 = .ok ()) :
    ∀ format ∈ formats, ∃ contents, r.contents sourceName now.text format = .ok contents ∧
      (tree (writeFormats host.disk r directory sourceName now.text formats s).2).node?
        (format.path directory sourceName now.text) = some (.file contents.toUTF8.toList) := by
  induction formats generalizing s with
  | nil => exact fun _ hmem => absurd hmem List.not_mem_nil
  | cons format formats ih =>
    obtain ⟨hnew, hnodup⟩ := List.nodup_cons.1 hnodup
    obtain ⟨s', ⟨-, e, heq⟩ | ⟨bytes, e, -, heq⟩ | ⟨contents, hcontents, hwrite, heq⟩⟩ :=
      writeFormats_cons_cases h r directory sourceName now format formats s
    · rw [heq] at hok
      cases hok
    · rw [heq] at hok
      cases hok
    · rw [heq] at hok ⊢
      refine List.forall_mem_cons.2 ⟨⟨contents, hcontents, ?_⟩, ih hnodup s' hok⟩
      -- The formats behind it are written to other files.
      rw [Format.path_eq] at hwrite ⊢
      refine spares_writeFormats h r directory sourceName now formats s' _ _
        (avoids_reportFile _ _ _)
        (isEntryName_reportFile _ _ _) ?_ (FileTree.node?_write_self hwrite ?_)
      · rintro ⟨format', hmem, hname⟩
        exact hnew ((reportFile_inj hname).2 ▸ hmem)
      · exact inDirectory_ne_empty (isEntryName_reportFile _ _ _).ne_empty _

end Writing

/-! ## One file -/

theorem tree_loadSource (h : host.ActsOn tree) (path : String) (s : σ) :
    tree (loadSource host.disk path s).2 = tree s := by
  have hnode := (Prod.mk.inj (h.node? path s)).2
  unfold loadSource
  rw [bind_apply]
  cases (host.disk.node? path s).1 with
  | none => exact hnode
  | some node =>
    cases node with
    | directory => exact hnode
    | file bytes =>
      cases hdecode : decodeFile bytes <;> simp only [hdecode] <;> exact hnode

theorem tree_forM_display (h : host.ActsOn tree) (items : List ConsoleItem) (s : σ) :
    tree (items.forM host.display s).2 = tree s := by
  induction items generalizing s with
  | nil => rfl
  | cons item items ih =>
    have hstep : (item :: items).forM host.display s =
        items.forM host.display (host.display item s).2 := rfl
    rw [hstep, ih, h.display]

/-- The directory that reports go to. -/
def Arguments.reportDirectory (a : Arguments) : String :=
  a.reportDir.toOption.getD defaultReportDir

/-- If the directory can be made, the formats are written there, at the time it is then. -/
theorem saveReport_cases (h : host.ActsOn tree) (r : Report) (directory sourceName : String)
    (s : σ) : (tree s).Grows (tree (saveReport host r directory sourceName s).2) ∧
        (∃ e, (saveReport host r directory sourceName s).1 = .error e) ∨
      ∃ (now : Moment) (s' : σ), (tree s).Grows (tree s') ∧
        (saveReport host r directory sourceName s).2 =
          (writeFormats host.disk r directory sourceName now.text Format.all s').2 ∧
        ∀ paths, (saveReport host r directory sourceName s).1 = .ok paths →
          (writeFormats host.disk r directory sourceName now.text Format.all s').1 = .ok () := by
  have hmade : (tree s).Grows (tree (host.disk.makeDirectories directory s).2) := by
    rw [(Prod.mk.inj (h.makeDirectories directory s)).2]
    exact FileTree.grows_makeDirectories _ _
  unfold saveReport
  rw [bind_apply]
  cases (host.disk.makeDirectories directory s).1 with
  | error e => exact Or.inl ⟨hmade, _, rfl⟩
  | ok _ =>
    rw [← h.now (host.disk.makeDirectories directory s).2] at hmade
    refine Or.inr ⟨(host.now (host.disk.makeDirectories directory s).2).1, _, hmade, ?_⟩
    dsimp only
    rw [bind_apply, bind_apply]
    cases hwritten : (writeFormats host.disk r directory sourceName
      (host.now (host.disk.makeDirectories directory s).2).1.text Format.all
      (host.now (host.disk.makeDirectories directory s).2).2).1 with
    | error e => exact ⟨rfl, fun paths hok => by cases hok⟩
    | ok _ => exact ⟨rfl, fun _ _ => rfl⟩

theorem spares_saveReport (h : host.ActsOn tree) (r : Report) (directory sourceName : String)
    (s : σ) : Spares directory (IsReportOn sourceName) (tree s)
      (tree (saveReport host r directory sourceName s).2) := by
  rcases saveReport_cases h r directory sourceName s with ⟨hgrows, -⟩ | ⟨now, s', hgrows, hstate, -⟩
  · exact Spares.of_grows hgrows
  · rw [hstate]
    refine (Spares.of_grows hgrows).trans
      ((spares_writeFormats h r directory sourceName now _ s').mono ?_)
    rintro name ⟨format, -, hname⟩
    exact ⟨now, format, hname⟩

theorem saved_saveReport (h : host.ActsOn tree) (r : Report) (directory sourceName : String) (s : σ)
    {paths : List (String × String)}
    (hok : (saveReport host r directory sourceName s).1 = .ok paths) :
    Saved directory (tree (saveReport host r directory sourceName s).2) sourceName r := by
  rcases saveReport_cases h r directory sourceName s with ⟨-, e, herror⟩ |
    ⟨now, s', -, hstate, hwritten⟩
  · rw [herror] at hok
    cases hok
  · have hnodup : Format.all.Nodup := by decide
    have hall : ∀ format : Format, format ∈ Format.all := by
      intro format
      cases format <;> decide
    rw [hstate]
    exact ⟨now, fun format => node?_writeFormats h r directory sourceName now hnodup s'
      (hwritten paths hok) format (hall format)⟩

theorem saveFor_cases (host : Host (StateM σ)) (a : Arguments) (path : String) (r : Report)
    (s : σ) : ((saveFor host a path r s).2 = s ∧
        (a.noSave = false → ∀ paths, (saveFor host a path r s).1 ≠ .ok paths)) ∨
      (saveFor host a path r s).2 = (saveReport host r a.reportDirectory path s).2 ∧
        ∀ paths, (saveFor host a path r s).1 = .ok paths →
          (saveReport host r a.reportDirectory path s).1 = .ok paths := by
  unfold saveFor
  split
  next hno => exact Or.inl ⟨rfl, fun hsave => by rw [hno] at hsave; cases hsave⟩
  next =>
    split
    next => exact Or.inl ⟨rfl, fun _ paths hok => by cases hok⟩
    next =>
      refine Or.inr ?_
      rw [bind_apply, Arguments.reportDirectory]
      cases (saveReport host r (a.reportDir.toOption.getD defaultReportDir) path s).1 with
      | ok paths => exact ⟨rfl, fun _ hok => congrArg Except.ok (Except.ok.inj hok)⟩
      | error e =>
        cases e with
        | disk e => exact ⟨rfl, fun paths hok => by cases hok⟩
        | overlong fault => exact ⟨rfl, fun paths hok => by cases hok⟩

/-- What a scan of a file comes to : there is no report, or it is saved and shown. -/
theorem runFile_cases (h : host.ActsOn tree) (limits : Limits) (a : Arguments) (path : String)
    (s : σ) :
    (tree (runFile host limits a path s).2 = tree s ∧
      ∀ r, (runFile host limits a path s).1 ≠ .ok r) ∨
      ∃ (r : Report) (s' : σ), tree s' = tree s ∧
        tree (runFile host limits a path s).2 = tree (saveFor host a path r s').2 ∧
        ∀ r', (runFile host limits a path s).1 = .ok r' →
          r' = r ∧ ∃ paths, (saveFor host a path r s').1 = .ok paths := by
  have hload := tree_loadSource h path s
  unfold runFile
  rw [bind_apply]
  cases (loadSource host.disk path s).1 with
  | error e =>
    cases e with
    | isADirectory path => exact Or.inl ⟨hload, fun r hok => by cases hok⟩
    | missing path => exact Or.inl ⟨hload, fun r hok => by cases hok⟩
    | notUtf8 path e => exact Or.inl ⟨hload, fun r hok => by cases hok⟩
  | ok text =>
    dsimp only
    cases scanText limits path text with
    | error e => exact Or.inl ⟨hload, fun r hok => by cases hok⟩
    | ok r =>
      refine Or.inr ⟨r, _, hload, ?_⟩
      dsimp only
      rw [bind_apply]
      cases hsave : (saveFor host a path r (loadSource host.disk path s).2).1 with
      | error e => exact ⟨rfl, fun r' hok => by cases hok⟩
      | ok paths =>
        dsimp only
        rw [bind_apply]
        exact ⟨tree_forM_display h _ _, fun r' hok => ⟨(Except.ok.inj hok).symm, paths, rfl⟩⟩

variable {path : String} {s : σ} {r : Report}

section Scanning

variable (h : host.ActsOn tree) (limits : Limits) (a : Arguments)

include h

/-- To scan a file changes no report file but its own. -/
theorem spares_runFile (path : String) (s : σ) :
    Spares a.reportDirectory (IsReportOn path) (tree s)
      (tree (runFile host limits a path s).2) := by
  rcases runFile_cases h limits a path s with ⟨htree, -⟩ | ⟨r, s', hstart, htree, -⟩
  · exact htree ▸ Spares.refl _
  · rw [htree, ← hstart]
    rcases saveFor_cases host a path r s' with ⟨hstate, -⟩ | ⟨hstate, -⟩
    · rw [hstate]
      exact Spares.refl _
    · rw [hstate]
      exact spares_saveReport h r a.reportDirectory path s'

/-- A file that is scanned has its reports. -/
theorem saved_runFile (hsave : a.noSave = false) (hok : (runFile host limits a path s).1 = .ok r) :
    Saved a.reportDirectory (tree (runFile host limits a path s).2) path r := by
  rcases runFile_cases h limits a path s with ⟨-, hnone⟩ | ⟨r', s', -, htree, hreport⟩
  · exact absurd hok (hnone r)
  · obtain ⟨rfl, paths, hpaths⟩ := hreport r hok
    rw [htree]
    rcases saveFor_cases host a path r s' with ⟨-, hnone⟩ | ⟨hstate, hsaved⟩
    · exact absurd hpaths (hnone hsave paths)
    · rw [hstate]
      exact saved_saveReport h r a.reportDirectory path s' (hsaved paths hpaths)

end Scanning

/-! ## All files -/

/-- The files that are scanned from a state on, with their reports, up to the first that fails. -/
def scanned (host : Host (StateM σ)) (limits : Limits) (a : Arguments) :
    List String → σ → List (String × Report)
  | [], _ => []
  | path :: later, s =>
    match (runFile host limits a path s).1 with
    | .error _ => []
    | .ok r => (path, r) :: scanned host limits a later (runFile host limits a path s).2

/-- The first file fails, or the others follow. -/
theorem runFiles_cons_cases (host : Host (StateM σ)) (limits : Limits) (a : Arguments)
    (path : String) (later : List String) (s : σ) :
    (scanned host limits a (path :: later) s = [] ∧
        (∃ e, (runFile host limits a path s).1 = .error e ∧
          (runFiles host limits a (path :: later) s).1 = .error e) ∧
        (runFiles host limits a (path :: later) s).2 = (runFile host limits a path s).2) ∨
      ∃ r, (runFile host limits a path s).1 = .ok r ∧
        scanned host limits a (path :: later) s =
          (path, r) :: scanned host limits a later (runFile host limits a path s).2 ∧
        (runFiles host limits a (path :: later) s).1 =
          (runFiles host limits a later (runFile host limits a path s).2).1.map (r :: ·) ∧
        (runFiles host limits a (path :: later) s).2 =
          (runFiles host limits a later (runFile host limits a path s).2).2 := by
  rw [scanned, runFiles, bind_apply]
  cases (runFile host limits a path s).1 with
  | error e => exact Or.inl ⟨rfl, ⟨e, rfl, rfl⟩, rfl⟩
  | ok r =>
    refine Or.inr ⟨r, rfl, rfl, ?_⟩
    dsimp only
    rw [bind_apply]
    cases (runFiles host limits a later (runFile host limits a path s).2).1 with
    | error e => exact ⟨rfl, rfl⟩
    | ok rs => exact ⟨rfl, rfl⟩

variable {limits : Limits} {a : Arguments} {paths : List String}

/-- A run over files that comes to its end has scanned all of them. -/
theorem map_fst_scanned {rs : List Report} (hok : (runFiles host limits a paths s).1 = .ok rs) :
    (scanned host limits a paths s).map (·.1) = paths := by
  induction paths generalizing s rs with
  | nil => rfl
  | cons path later ih =>
    rcases runFiles_cons_cases host limits a path later s with
      ⟨-, ⟨e, -, herror⟩, -⟩ | ⟨r, -, hscanned, hending, -⟩
    · rw [herror] at hok
      cases hok
    · rw [hscanned, List.map_cons]
      cases hlater : (runFiles host limits a later (runFile host limits a path s).2).1 with
      | error e =>
        rw [hending, hlater] at hok
        cases hok
      | ok rs' => rw [ih hlater]

/-! ## Endings -/

/-- A run that ends so did not scan all files. -/
def Ending.isFault : Ending → Bool
  | stopped _ | diskFailed _ | unsaved _ | emptied _ => true
  | finished | helped | failing | misused _ => false

variable {e : Ending}

theorem isFault_of_scanText {path text : String} (h : scanText limits path text = .error e) :
    e.isFault := by
  unfold scanText at h
  split at h
  next =>
    obtain rfl := Except.error.inj h
    rfl
  next =>
    split at h
    next =>
      obtain rfl := Except.error.inj h
      rfl
    next =>
      split at h
      next =>
        obtain rfl := Except.error.inj h
        rfl
      next => cases h

theorem isFault_of_saveFor (h : (saveFor host a path r s).1 = .error e) : e.isFault := by
  unfold saveFor at h
  split at h
  next => cases h
  next =>
    split at h
    next =>
      obtain rfl := Except.error.inj h
      rfl
    next =>
      rw [bind_apply] at h
      cases hsaved : (saveReport host r (a.reportDir.toOption.getD defaultReportDir) path s).1 with
      | ok paths =>
        rw [hsaved] at h
        cases h
      | error fault =>
        rw [hsaved] at h
        cases fault <;> obtain rfl := Except.error.inj h <;> rfl

theorem isFault_of_runFile (h : (runFile host limits a path s).1 = .error e) : e.isFault := by
  unfold runFile at h
  rw [bind_apply] at h
  cases hload : (loadSource host.disk path s).1 with
  | error fault =>
    rw [hload] at h
    cases fault <;> obtain rfl := Except.error.inj h <;> rfl
  | ok text =>
    rw [hload] at h
    dsimp only at h
    cases hscan : scanText limits path text with
    | error fault =>
      rw [hscan] at h
      obtain rfl := Except.error.inj h
      exact isFault_of_scanText hscan
    | ok r =>
      rw [hscan] at h
      dsimp only at h
      rw [bind_apply] at h
      cases hsave : (saveFor host a path r (loadSource host.disk path s).2).1 with
      | error fault =>
        rw [hsave] at h
        obtain rfl := Except.error.inj h
        exact isFault_of_saveFor hsave
      | ok paths =>
        rw [hsave] at h
        cases h

theorem isFault_of_runFiles (h : (runFiles host limits a paths s).1 = .error e) : e.isFault := by
  induction paths generalizing s with
  | nil => cases h
  | cons path later ih =>
    rcases runFiles_cons_cases host limits a path later s with
      ⟨-, ⟨fault, hfault, herror⟩, -⟩ | ⟨r, -, -, hending, -⟩
    · rw [herror] at h
      exact Except.error.inj h ▸ isFault_of_runFile hfault
    · rw [hending] at h
      cases hlater : (runFiles host limits a later (runFile host limits a path s).2).1 with
      | error fault =>
        rw [hlater] at h
        obtain rfl : fault = e := Except.error.inj h
        exact ih hlater
      | ok rs =>
        rw [hlater] at h
        cases h

/-! ## Runs -/

section Scanning

variable (h : host.ActsOn tree) (limits : Limits) (a : Arguments)

include h

/-- To scan files changes no report files but theirs. -/
theorem spares_runFiles (paths : List String) (s : σ) :
    Spares a.reportDirectory (fun name => ∃ path ∈ paths, IsReportOn path name) (tree s)
      (tree (runFiles host limits a paths s).2) := by
  induction paths generalizing s with
  | nil => exact Spares.refl _
  | cons path later ih =>
    have hfirst :
        Spares a.reportDirectory (fun name => ∃ path' ∈ path :: later, IsReportOn path' name)
        (tree s) (tree (runFile host limits a path s).2) :=
      (spares_runFile h limits a path s).mono fun name hname => ⟨path, List.mem_cons_self, hname⟩
    rcases runFiles_cons_cases host limits a path later s with ⟨-, -, hstate⟩ | ⟨r, -, -, -, hstate⟩
    · rw [hstate]
      exact hfirst
    · rw [hstate]
      refine hfirst.trans ((ih _).mono fun name hname => ?_)
      obtain ⟨path', hmem, hname⟩ := hname
      exact ⟨path', List.mem_cons_of_mem _ hmem, hname⟩

/-- Reports on other stems than those of the files stay. -/
theorem saved_runFiles_of_saved (hstem : ∀ path' ∈ paths, reportStem path ≠ reportStem path')
    (hsaved : Saved a.reportDirectory (tree s) path r) :
    Saved a.reportDirectory (tree (runFiles host limits a paths s).2) path r := by
  obtain ⟨now, hformats⟩ := hsaved
  refine ⟨now, fun format => ?_⟩
  obtain ⟨contents, hcontents, hnode⟩ := hformats format
  refine ⟨contents, hcontents, ?_⟩
  rw [Format.path_eq] at hnode ⊢
  refine spares_runFiles h limits a paths s _ _ (avoids_reportFile _ _ _)
    (isEntryName_reportFile _ _ _) ?_ hnode
  rintro ⟨path', hmem, now', format', hname⟩
  exact hstem path' hmem (reportFile_inj hname).1

/-- Files of different stems that are scanned have their reports when the run is over. -/
theorem saved_runFiles (hsave : a.noSave = false)
    (hstems : paths.Pairwise fun p q => reportStem p ≠ reportStem q) (s : σ) :
    ∀ entry ∈ scanned host limits a paths s,
      Saved a.reportDirectory (tree (runFiles host limits a paths s).2) entry.1 entry.2 := by
  induction paths generalizing s with
  | nil => exact fun _ hmem => absurd hmem List.not_mem_nil
  | cons path later ih =>
    obtain ⟨hfirst, hlater⟩ := List.pairwise_cons.1 hstems
    rcases runFiles_cons_cases host limits a path later s with
      ⟨hscanned, -, -⟩ | ⟨r, hok, hscanned, -, hstate⟩
    · rw [hscanned]
      exact fun _ hmem => absurd hmem List.not_mem_nil
    · rw [hscanned, hstate]
      exact List.forall_mem_cons.2
        ⟨saved_runFiles_of_saved h limits a hfirst (saved_runFile h limits a hsave hok),
          ih hlater _⟩

end Scanning

theorem runArguments_apply {host : Host (StateM σ)} {env : Environment}
    (hlist : a.listRules = false) (hfiles : a.files ≠ [])
    (hlimits : a.limits.resolve env = .ok limits) (s : σ) :
    (runArguments host env a s).2 = (runFiles host limits a a.files s).2 ∧
      ((∃ rs, (runFiles host limits a a.files s).1 = .ok rs) ∨
        ∃ e, (runFiles host limits a a.files s).1 = .error e ∧
          (runArguments host env a s).1 = e) := by
  have hempty : a.files.isEmpty = false := List.isEmpty_eq_false_iff.2 hfiles
  unfold runArguments
  rw [hlist, if_neg Bool.false_ne_true, hempty, if_neg Bool.false_ne_true, hlimits]
  dsimp only
  rw [bind_apply]
  cases (runFiles host limits a a.files s).1 with
  | error e => exact ⟨rfl, Or.inr ⟨e, rfl, rfl⟩⟩
  | ok rs => exact ⟨rfl, Or.inl ⟨rs, rfl⟩⟩

/-- Two sources have report files of one name at the same time just if they have one stem. Behind a
run with saving on over files of different stems, each file that was scanned has its four reports in
the report directory, whatever the clock showed; and a run that comes to its end has scanned all of
them. -/
theorem run_keeps_reports (h : host.ActsOn tree) (env : Environment) (words : List String)
    (a : Arguments) (limits : Limits) (hparse : Arguments.parse words = .ok (some a))
    (hlist : a.listRules = false) (hsave : a.noSave = false)
    (hlimits : a.limits.resolve env = .ok limits)
    (hstems : a.files.Pairwise fun p q => reportStem p ≠ reportStem q) (s : σ) :
    (∀ p q time, baseName p time = baseName q time ↔ reportStem p = reportStem q) ∧
      (∀ entry ∈ scanned host limits a a.files s,
        Saved a.reportDirectory (tree (run host env words s).2) entry.1 entry.2) ∧
      ((run host env words s).1 = .finished ∨ (run host env words s).1 = .failing →
        (scanned host limits a a.files s).map (·.1) = a.files) := by
  have hrun : run host env words s = runArguments host env a s := by
    rw [run, hparse]
  rw [hrun]
  refine ⟨baseName_eq_iff, ?_⟩
  by_cases hfiles : a.files = []
  · rw [hfiles]
    exact ⟨fun _ hmem => absurd hmem List.not_mem_nil, fun _ => rfl⟩
  · obtain ⟨hstate, hending⟩ := runArguments_apply hlist hfiles hlimits s
    refine ⟨?_, fun hfinished => ?_⟩
    · rw [hstate]
      exact saved_runFiles h limits a hsave hstems s
    · rcases hending with ⟨rs, hok⟩ | ⟨e, herror, hend⟩
      · exact map_fst_scanned hok
      · have hfault := isFault_of_runFiles herror
        rw [hend] at hfinished
        rcases hfinished with rfl | rfl <;> cases hfault

/-- A desk with two sources in its home directory. -/
def twoSources : Desk :=
  ⟨⟨["home"], .directory [("home", .directory
    [("a.sol", .file "contract A \x7b\x7d".toUTF8.toList),
      ("b.sol", .file "contract B \x7b\x7d".toUTF8.toList)])]⟩, []⟩

/-- What `a.sol b.sol` asks for. -/
def scanBoth : Arguments :=
  { Arguments.unset with files := ["a.sol", "b.sol"] }

theorem twoSources_keep_reports :
    (scanBoth.files.Pairwise fun p q => reportStem p ≠ reportStem q) ∧
      (run (Desk.host ⟨2024, 1, 2, 3, 4, 5⟩) [] ["a.sol", "b.sol"] twoSources).1 = .finished ∧
      (scanned (Desk.host ⟨2024, 1, 2, 3, 4, 5⟩)
        ⟨.unset, .unset⟩ scanBoth scanBoth.files twoSources).map
        (·.1) = ["a.sol", "b.sol"] ∧
      ∀ entry ∈ scanned (Desk.host ⟨2024, 1, 2, 3, 4, 5⟩)
        ⟨.unset, .unset⟩ scanBoth scanBoth.files twoSources, Saved scanBoth.reportDirectory
          (run (Desk.host ⟨2024, 1, 2, 3, 4, 5⟩) [] ["a.sol", "b.sol"] twoSources).2.tree
          entry.1 entry.2 := by
  have hstems : scanBoth.files.Pairwise fun p q => reportStem p ≠ reportStem q := by decide +kernel
  have hfinished : (run (Desk.host ⟨2024, 1, 2, 3, 4, 5⟩) [] ["a.sol", "b.sol"] twoSources).1 =
      .finished := by
    decide +kernel
  obtain ⟨-, hsaved, hscanned⟩ := run_keeps_reports (Desk.actsOn_host ⟨2024, 1, 2, 3, 4, 5⟩) []
    ["a.sol", "b.sol"] scanBoth ⟨.unset, .unset⟩ rfl rfl rfl rfl hstems twoSources
  exact ⟨hstems, hfinished, hscanned (Or.inl hfinished), hsaved⟩

/-- Sources of one stem share their report files, whatever the time. -/
theorem baseName_shared : "a/T.sol" ≠ "b/T.sol" ∧
    ∀ time, baseName "a/T.sol" time = baseName "b/T.sol" time :=
  ⟨by decide, fun time => (baseName_eq_iff _ _ time).2 (by decide +kernel)⟩

end ContractAudit
