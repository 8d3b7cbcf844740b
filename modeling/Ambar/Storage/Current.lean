import Ambar.Storage.Open

/-!
# What CURRENT names

A database is there once CURRENT is. From then on CURRENT names a manifest that is there
too, whose first records, all synced, give `VersionSet::recover` the numbers it asks for;
and no call opens that manifest for writing, which would empty it.

The rules for single calls (`Allowed`) are enough for that whatever program makes them, so
the programs that write CURRENT and the manifests are checked call by call against the
rules. One of them breaks the rules: `DBImpl::recover` takes CURRENT to be missing
when `path_type` fails, and may then create a database over the one that is there.

* `Allowed.currentOk`: a call that keeps the rules keeps CURRENT's manifest.
* `process_safe`: opens, edits and cleanups keep the rules if CURRENT is seen where it is.
* `current_names_manifest`: so in every state of every history.
-/

namespace Ambar.Storage

open Lib

/-! ## The invariant -/

/-- CURRENT holds the name of the manifest `n`, and all of it is synced. -/
def Names (d : Disk) (n : ℕ) : Prop :=
  d (.db currentFileName) = some ⟨[.text (descriptorFileName n), .text ['\n']], []⟩

/-- The file begins with synced records that hold all that `VersionSet::recover` asks for. -/
def Sufficient (f : File) : Prop :=
  ∃ edits rest, f.synced = edits.map Piece.record ++ rest ∧ (replayEdits edits).nextFile.isSome ∧
    (replayEdits edits).logNumber.isSome ∧ (replayEdits edits).lastSequence.isSome

/-- The manifest `n` is there and is sufficient. -/
def Manifest (d : Disk) (n : ℕ) : Prop := ∃ f, d (.db (descriptorFileName n)) = some f ∧ Sufficient f

/-- A database, once there is one, has its manifest. -/
def CurrentOk (d : Disk) : Prop :=
  (d (.db currentFileName)).isSome → ∃ n, Names d n ∧ Manifest d n

/-- The calls that keep it: CURRENT is written only by a rename that names a sufficient
    manifest, and the manifest it names is neither emptied nor removed. -/
def Allowed : Change → Disk → Prop
  | .openWrite p, d | .remove p, d =>
    p ≠ .db currentFileName ∧ ∀ n, Names d n → p ≠ .db (descriptorFileName n)
  | .append p _, _ | .sync p, _ => p ≠ .db currentFileName
  | .rename src dst, d => ∃ n, dst = .db currentFileName ∧ src = .db (tempFileName n) ∧
      d src = some ⟨[.text (descriptorFileName n), .text ['\n']], []⟩ ∧ Manifest d n
  | _, _ => True

/-! ## Names -/

theorem numbered_ne_current (n : ℕ) (suffix : FileName) : numbered n suffix ≠ currentFileName :=
  numbered_ne_cons 'C' _ rfl

theorem numbered_ne_descriptor (n m : ℕ) (suffix : FileName) :
    numbered n suffix ≠ descriptorFileName m :=
  numbered_ne_cons 'M' _ rfl

theorem descriptor_ne_current (n : ℕ) : descriptorFileName n ≠ currentFileName := fun h =>
  absurd (List.cons.inj h).1 (by decide)

theorem Names.unique {d : Disk} {m n : ℕ} (hm : Names d m) (hn : Names d n) : m = n := by
  have h := Option.some.inj (hm.symm.trans hn)
  simp only [File.mk.injEq, List.cons.injEq, Piece.text.injEq] at h
  exact descriptorFileName_injective h.1.1

theorem Names.congr {d d' : Disk} {n : ℕ} (h : Names d n)
    (heq : d' (.db currentFileName) = d (.db currentFileName)) : Names d' n := heq.trans h

/-! ## What one call does -/

theorem Sufficient.append {f : File} (h : Sufficient f) (unsynced : List Piece) :
    Sufficient { f with unsynced := unsynced } := h

theorem Sufficient.sync {f : File} (h : Sufficient f) (n : ℕ) :
    Sufficient ⟨f.synced ++ f.unsynced.take n, f.unsynced.drop n⟩ := by
  obtain ⟨edits, rest, heq, hnumbers⟩ := h
  exact ⟨edits, rest ++ f.unsynced.take n, by rw [heq, List.append_assoc], hnumbers⟩

theorem Manifest.modify {d : Disk} {p : Path} {g : File → File} {n : ℕ} (h : Manifest d n)
    (hg : ∀ f, Sufficient f → Sufficient (g f)) : Manifest (d.modify p g) n := by
  obtain ⟨f, hf, hs⟩ := h
  by_cases hp : Path.db (descriptorFileName n) = p
  · subst hp
    exact ⟨g f, by rw [Disk.modify_self, hf]; rfl, hg f hs⟩
  · exact ⟨f, by rw [Disk.modify_of_ne _ hp, hf], hs⟩

theorem Manifest.congr {d d' : Disk} {n : ℕ} (h : Manifest d n)
    (heq : d' (.db (descriptorFileName n)) = d (.db (descriptorFileName n))) : Manifest d' n := by
  obtain ⟨f, hf, hs⟩ := h
  exact ⟨f, heq.trans hf, hs⟩

/-- **A change that keeps the rules** keeps CURRENT as it is, or names another manifest
    that is sufficient. -/
theorem Allowed.step {c : Change} {d d' : Disk} {r : Except Status Unit} (hG : Allowed c d)
    (h : c.Does d r d') :
    (d' (.db currentFileName) = d (.db currentFileName) ∧
      ∀ n, Names d n → Manifest d n → Manifest d' n) ∨
    ∃ n, Names d' n ∧ Manifest d' n := by
  have hsame : Path.db currentFileName ∉ c.touches →
      (∀ n, Names d n → Path.db (descriptorFileName n) ∉ c.touches) →
      (d' (.db currentFileName) = d (.db currentFileName) ∧
        ∀ n, Names d n → Manifest d n → Manifest d' n) := fun hcur hman =>
    ⟨h.frame hcur, fun n hn hm => hm.congr (h.frame (hman n hn))⟩
  cases c with
  | openWrite p =>
    exact Or.inl (hsame (List.mem_singleton.not.mpr hG.1.symm)
      fun n hn => List.mem_singleton.not.mpr (hG.2 n hn).symm)
  | remove p =>
    exact Or.inl (hsame (List.mem_singleton.not.mpr hG.1.symm)
      fun n hn => List.mem_singleton.not.mpr (hG.2 n hn).symm)
  | append p piece =>
    refine Or.inl ⟨h.frame (List.mem_singleton.not.mpr (Ne.symm hG)), fun n _ hm => ?_⟩
    rcases h with rfl | ⟨-, rfl | rfl⟩
    · exact hm.modify fun f hf => hf.append _
    · exact hm
    · exact hm.modify fun f hf => hf.append _
  | sync p =>
    refine Or.inl ⟨h.frame (List.mem_singleton.not.mpr (Ne.symm hG)), fun n _ hm => ?_⟩
    obtain ⟨k, rfl, -⟩ := h
    exact hm.modify fun f hf => hf.sync k
  | rename src dst =>
    obtain ⟨n, rfl, rfl, hsrc, hm⟩ := hG
    rcases h with ⟨f, hf, rfl⟩ | ⟨-, rfl⟩
    · refine Or.inr ⟨n, ?_, hm.congr ?_⟩
      · obtain rfl := Option.some.inj (hf.symm.trans hsrc)
        exact Function.update_self _ _ _
      · rw [Disk.rename, Function.update_of_ne, Function.update_of_ne]
        · exact fun heq => numbered_ne_descriptor _ _ _ (Path.db.inj heq).symm
        · exact fun heq => descriptor_ne_current n (Path.db.inj heq)
    · exact Or.inl ⟨rfl, fun _ _ hm => hm⟩
  | lockFile =>
    refine Or.inl (hsame (List.mem_singleton.not.mpr ?_) fun n _ => List.mem_singleton.not.mpr ?_)
    · exact fun heq => absurd (Path.db.inj heq) (by decide)
    · exact fun heq => absurd (List.cons.inj (Path.db.inj heq)).1 (by decide)
  | createDirectory => exact Or.inl (hsame List.not_mem_nil fun _ _ => List.not_mem_nil)
  | createLost => exact Or.inl (hsame List.not_mem_nil fun _ _ => List.not_mem_nil)
  | syncDirectory => exact Or.inl (hsame List.not_mem_nil fun _ _ => List.not_mem_nil)
  | close p => exact Or.inl (hsame List.not_mem_nil fun _ _ => List.not_mem_nil)

theorem Allowed.currentOk {c : Change} {d d' : Disk} {r : Except Status Unit} (hG : Allowed c d)
    (h : c.Does d r d') (hI : CurrentOk d) : CurrentOk d' := by
  intro hcur
  rcases hG.step h with ⟨heq, hkeep⟩ | hnew
  · rw [heq] at hcur
    obtain ⟨n, hn, hm⟩ := hI hcur
    exact ⟨n, hn.congr heq, hkeep n hn hm⟩
  · exact hnew

theorem Allowed.created {c : Change} {d d' : Disk} {r : Except Status Unit} (hG : Allowed c d)
    (h : c.Does d r d') (hcur : (d (.db currentFileName)).isSome) :
    (d' (.db currentFileName)).isSome := by
  rcases hG.step h with ⟨heq, -⟩ | ⟨n, hn, -⟩
  · rwa [heq]
  · rw [hn]
    rfl

/-! ## The programs -/

/-- A `path_type` of CURRENT that answers what is there. -/
def Sees : (c : Call) → Disk → Answer c → Prop
  | .pathType p, d, r => p = .db currentFileName → r = .missing → d p = none
  | _, _, _ => True

/-- A step of a process that sees CURRENT. -/
def Step (c : Call) (d : Disk) (r : Answer c) (d' : Disk) : Prop := Performs c d r d' ∧ Sees c d r

/-- A call that keeps the rules. -/
def Guard : Call → Disk → Prop
  | .change c, d => Allowed c d
  | _, _ => True

/-- What the calls of a process keep. -/
def currentRules : Rules where
  step := Step
  inv := CurrentOk
  guard := Guard
  performs h := h.1
  sound {c d r d'} hI hG h := by
    cases c with
    | change c => exact Allowed.currentOk hG h.1 hI
    | lostType => exact (h.1 : d' = d) ▸ hI
    | pathType p => exact h.1.1 ▸ hI
    | listDirectory => exact h.1.1 ▸ hI
    | fileSize p => exact h.1.1 ▸ hI
    | read p => exact h.1.1 ▸ hI

section Programs

variable {d : Disk} {α : Type} {E : Status → Disk → Prop}

abbrev Keeps (p : Fs α) (d : Disk) (E : Status → Disk → Prop) (Q : α → Disk → Prop) : Prop :=
  currentRules.Keeps p d E Q

/-- CURRENT is as it was. -/
def SameCurrent (d d' : Disk) : Prop := d' (.db currentFileName) = d (.db currentFileName)

theorem SameCurrent.trans {d d' d'' : Disk} (h : SameCurrent d d') (h' : SameCurrent d' d'') :
    SameCurrent d d'' := Eq.trans h' h

theorem SameCurrent.names {d d' : Disk} {n : ℕ} (h : SameCurrent d d') : Names d' n ↔ Names d n := by
  unfold Names
  rw [show d' (.db currentFileName) = d (.db currentFileName) from h]

theorem sameCurrent_of_only {d d' : Disk} {p : Path} (h : Rules.Only p d d')
    (hp : p ≠ .db currentFileName) : SameCurrent d d' := h _ hp.symm

/-- A file that is no manifest may be written and removed. -/
theorem numbered_ne {n : ℕ} {suffix : FileName} :
    Path.db (numbered n suffix) ≠ .db currentFileName ∧
      ∀ m, Names d m → Path.db (numbered n suffix) ≠ .db (descriptorFileName m) :=
  ⟨fun h => numbered_ne_current n suffix (Path.db.inj h),
    fun m _ h => numbered_ne_descriptor n m suffix (Path.db.inj h)⟩

/-- A manifest that CURRENT does not name may be written and removed. -/
theorem manifest_ne {m : ℕ} (h : ¬ Names d m) :
    Path.db (descriptorFileName m) ≠ .db currentFileName ∧
      ∀ n, Names d n → Path.db (descriptorFileName m) ≠ .db (descriptorFileName n) :=
  ⟨fun heq => descriptor_ne_current m (Path.db.inj heq),
    fun n hn heq => h (descriptorFileName_injective (Path.db.inj heq) ▸ hn)⟩

/-- A call that is no change of files leaves them. -/
theorem keeps_same {c : Change} (hI : CurrentOk d) (hG : Allowed c d) (hc : c.touches = []) :
    Keeps (Fs.change c) d (fun _ d' => d' = d) fun _ d' => d' = d := by
  have hsame : ∀ r d', c.Does d r d' → d' = d := fun r d' h =>
    funext fun q => h.frame (hc ▸ List.not_mem_nil)
  exact Rules.keeps_change hI hG (fun d' h => hsame _ d' h) fun _ d' h => hsame _ d' h

/-! ### CURRENT -/

/-- **Naming a manifest** that is there and sufficient. -/
theorem keeps_setCurrentFile {n : ℕ} (hI : CurrentOk d) (hm : Manifest d n) :
    Keeps (setCurrentFile n) d (fun _ _ => True) fun _ d' => Names d' n := by
  have htemp : Path.db (tempFileName n) ≠ .db currentFileName := (@numbered_ne d n _).1
  have hman : Path.db (descriptorFileName n) ≠ .db (tempFileName n) := fun h =>
    numbered_ne_descriptor _ _ _ (Path.db.inj h).symm
  refine Rules.Keeps.onFailure (fun _ _ => True) ?_ fun _ t hI _ =>
    Rules.keeps_remove hI numbered_ne fun _ _ => trivial
  refine Safe.except ((Rules.keeps_openWrite hI numbered_ne).ends (fun _ _ _ => trivial)
    fun _ _ h => h) ?_
  rintro - d₁ hI₁ ⟨honly₁, hd₁⟩
  refine Safe.except ((Rules.keeps_write _ hI₁ (fun _ _ => htemp) fun _ => htemp).ends
    (fun _ _ _ => trivial) fun _ _ h => h) ?_
  rintro - d₂ hI₂ ⟨honly₂, hd₂⟩
  refine Safe.except ((keeps_same (c := .close _) hI₂ trivial rfl).ends (fun _ _ _ => trivial) fun _ _ h => h) ?_
  rintro - d₃ hI₃ rfl
  have hm₂ : Manifest d₃ n := hm.congr ((honly₂ _ hman).trans (honly₁ _ hman))
  have hsrc := hd₂ _ hd₁
  refine Safe.except (Q := fun _ d' => Names d' n)
    (Rules.keeps_change hI₃ ⟨n, rfl, rfl, hsrc, hm₂⟩ ?_ fun _ _ _ => trivial) ?_
  · rintro d₄ (⟨f, hf, rfl⟩ | ⟨hr, -⟩)
    · obtain rfl := Option.some.inj (hf.symm.trans hsrc)
      exact Function.update_self _ _ _
    · exact absurd rfl hr
  · rintro - d₄ hI₄ hnames
    refine (keeps_same (c := .syncDirectory) hI₄ trivial rfl).ends (fun _ _ _ => trivial) ?_
    rintro - d₅ rfl
    exact hnames

/-- What `read_current` makes of a CURRENT that names a manifest. -/
theorem parseCurrent_names {n : ℕ} {base : FileName}
    (h : parseCurrent [.text (descriptorFileName n), .text ['\n']] = .ok base) :
    base = descriptorFileName n ∧ (parseFileName base).elim 0 Prod.fst = n := by
  have htext : textOf [.text (descriptorFileName n), .text ['\n']] = some (descriptorFileName n ++ ['\n']) := rfl
  unfold parseCurrent at h
  rw [htext] at h
  simp only [List.getLast?_concat, List.dropLast_concat, ne_eq, not_true_eq_false, if_false] at h
  split_ifs at h with hbad
  obtain rfl := Except.ok.inj h
  refine ⟨rfl, ?_⟩
  rw [not_or, not_or, not_not] at hbad
  obtain ⟨-, -, htype⟩ := hbad
  rw [parseFileName_descriptor] at htype ⊢
  cases hnumber : parseNumber (sixDigits n) with
  | none =>
    rw [hnumber] at htype
    cases htype
  | some k => exact eq_of_parseNumber_sixDigits hnumber

theorem keeps_readCurrent (hI : CurrentOk d) :
    Keeps readCurrent d (fun _ d' => d' = d) fun base d' => d' = d ∧
      ∀ n, Names d n → base = descriptorFileName n ∧ (parseFileName base).elim 0 Prod.fst = n := by
  refine Safe.except (Rules.keeps_read hI trivial fun _ => rfl) ?_
  rintro ⟨pieces, failure⟩ d₁ hI₁ ⟨rfl, hread⟩
  cases failure with
  | some status => exact Safe.throw hI₁ rfl
  | none =>
    obtain ⟨f, hf, hpieces⟩ := hread rfl
    refine Rules.keeps_ofExcept hI₁ (fun base hbase => ⟨rfl, fun n hn => ?_⟩) fun _ _ => rfl
    obtain rfl := Option.some.inj (hf.symm.trans hn)
    have hpieces : pieces = [.text (descriptorFileName n), .text ['\n']] := hpieces
    rw [hpieces] at hbase
    exact parseCurrent_names hbase

/-! ### Manifests -/

/-- Records that end in one with every number. -/
theorem sufficient_of_last {edits : List VersionEdit} {edit : VersionEdit} {rest unsynced : List Piece}
    (hnext : edit.nextFileNumber.isSome) (hlog : edit.logNumber.isSome) (hlast : edit.lastSequence.isSome) :
    Sufficient ⟨(edits ++ [edit]).map Piece.record ++ rest, unsynced⟩ := by
  refine ⟨edits ++ [edit], rest, rfl, ?_⟩
  rw [replayEdits, List.foldl_append]
  show (edit.nextFileNumber.or _).isSome ∧ (edit.logNumber.or _).isSome ∧ (edit.lastSequence.or _).isSome
  simp [Option.isSome_or, hnext, hlog, hlast]

/-- **Creating a database** where CURRENT is not. -/
theorem keeps_newDb (hI : CurrentOk d) (hnone : d (.db currentFileName) = none) :
    Keeps newDb d (fun _ _ => True) fun _ _ => True := by
  have hno : ∀ {d' : Disk}, SameCurrent d d' → ¬ Names d' 1 := fun hsame hn => by
    rw [hsame.names, Names, hnone] at hn
    cases hn
  have hcur : Path.db (descriptorFileName 1) ≠ .db currentFileName := (manifest_ne (hno rfl)).1
  refine Safe.except ((Rules.keeps_openWrite hI (manifest_ne (hno rfl))).ends (fun _ _ _ => trivial)
    fun _ _ h => h) ?_
  rintro - d₁ hI₁ ⟨honly₁, hd₁⟩
  have hsame₁ : SameCurrent d d₁ := sameCurrent_of_only honly₁ hcur
  refine Safe.except (Q := fun _ d' => Manifest d' 1) (Rules.Keeps.onFailure (fun _ d' => SameCurrent d d')
    ?_ fun _ t hI hsame => Rules.keeps_remove hI (manifest_ne (hno hsame)) fun _ _ => trivial) ?_
  · refine Safe.except ((Rules.keeps_write _ hI₁ (fun _ _ => hcur) fun _ => hcur).ends
      (fun _ _ h => hsame₁.trans (sameCurrent_of_only h hcur)) fun _ _ h => h) ?_
    rintro - d₂ hI₂ ⟨honly₂, hd₂⟩
    refine (keeps_same (c := .close _) hI₂ trivial rfl).ends ?_ ?_
    · rintro - d₃ rfl
      exact hsame₁.trans (sameCurrent_of_only honly₂ hcur)
    · rintro - d₃ rfl
      exact ⟨_, hd₂ _ hd₁, @sufficient_of_last [] newDbEdit [] [] rfl rfl rfl⟩
  · rintro - d₂ hI₂ hm
    exact (keeps_setCurrentFile hI₂ hm).ends (fun _ _ h => h) fun _ _ _ => trivial

theorem finishRecover_manifest {v v' : VersionSet} {own : ℕ} {r : Replay}
    (h : finishRecover v own r = .ok v') : own < v'.manifestFileNumber := by
  unfold finishRecover at h
  split at h
  · cases h
  · cases h
  · cases h
  · obtain rfl := Except.ok.inj h
    show own < if _ ≤ own then own + 1 else _
    split_ifs <;> omega

/-- The manifest of the next edit is above the one CURRENT names. -/
theorem keeps_recoverVersions (hI : CurrentOk d) :
    Keeps recoverVersions d (fun _ _ => True) fun v d' => d' = d ∧
      ∀ n, Names d n → n < v.manifestFileNumber := by
  refine Safe.except ((keeps_readCurrent hI).ends (fun _ _ _ => trivial) fun _ _ h => h) ?_
  rintro base d₁ hI₁ ⟨rfl, hbase⟩
  refine Safe.lift (Rules.keeps_read (E := fun _ d' => d' = d₁) hI₁ trivial fun _ => rfl) ?_
  rintro (status | ⟨pieces, failure⟩) d₂ hI₂ hread
  · exact Safe.throw hI₂ trivial
  · obtain ⟨rfl, -⟩ := hread
    refine Rules.keeps_ofExcept hI₂ (fun v hv => ⟨rfl, fun n hn => ?_⟩) fun _ _ => trivial
    unfold recoverEdits at hv
    split at hv
    · cases hv
    · split_ifs at hv
      have hlt := finishRecover_manifest hv
      rwa [(hbase n hn).2] at hlt

/-- The stores of a manifest that is not yet named. -/
theorem keeps_writeManifest_first {v : VersionSet} {edit : VersionEdit} (hI : CurrentOk d)
    (habove : ∀ n, Names d n → n < v.manifestFileNumber) (hnext : edit.nextFileNumber.isSome)
    (hlog : edit.logNumber.isSome) (hlast : edit.lastSequence.isSome) :
    Keeps (writeManifest v true edit) d (fun _ _ => True) fun _ d' => Names d' v.manifestFileNumber := by
  have hno : ¬ Names d v.manifestFileNumber := fun hn => lt_irrefl _ (habove _ hn)
  have hcur := (manifest_ne hno).1
  show Keeps (Fs.openWrite _ >>= fun _ => Fs.write _ _ >>= fun _ => setCurrentFile _) d _ _
  refine Safe.except ((Rules.keeps_openWrite hI (manifest_ne hno)).ends (fun _ _ _ => trivial)
    fun _ _ h => h) ?_
  rintro - d₁ hI₁ ⟨-, hd₁⟩
  refine Safe.except ((Rules.keeps_write _ hI₁ (fun _ _ => hcur) fun _ => hcur).ends
    (fun _ _ _ => trivial) fun _ _ h => h) ?_
  rintro - d₂ hI₂ ⟨-, hd₂⟩
  exact keeps_setCurrentFile hI₂
    ⟨_, hd₂ _ hd₁, @sufficient_of_last [v.writeSnapshot] edit [] [] hnext hlog hlast⟩

/-- A failed first edit removes its manifest only where CURRENT names another. -/
theorem keeps_dropManifest {v : VersionSet} (hI : CurrentOk d) :
    Keeps (dropManifest v) d (fun _ _ => True) fun _ _ => True := by
  refine Safe.lift (keeps_readCurrent hI) ?_
  rintro (status | named) d₁ hI₁ hread
  · exact Safe.exceptPure hI₁ trivial
  · obtain ⟨rfl, hnamed⟩ := hread
    show Keeps (if _ then _ else _) _ _ _
    split_ifs with hother
    · refine Rules.keeps_remove hI₁ (manifest_ne fun hn => hother (hnamed _ hn).1) fun _ _ => trivial
    · exact Safe.exceptPure hI₁ trivial

/-- **The first edit** of a process. -/
theorem keeps_logAndApply_first {v : VersionSet} {edit : VersionEdit} (hI : CurrentOk d)
    (habove : ∀ n, Names d n → n < v.manifestFileNumber) :
    Keeps (logAndApply v true edit) d (fun _ _ => True) fun v' d' => Names d' v'.manifestFileNumber := by
  refine Safe.except (Q := fun _ d' => Names d' v.manifestFileNumber)
    (Rules.Keeps.onFailure (fun _ _ => True)
      (keeps_writeManifest_first hI habove rfl rfl rfl) fun _ t hI _ => keeps_dropManifest hI) ?_
  rintro - d₁ hI₁ hnames
  exact Safe.exceptPure hI₁ hnames

/-- A later edit is appended to the manifest that CURRENT names. -/
theorem keeps_logAndApply_later {v : VersionSet} {edit : VersionEdit} (hI : CurrentOk d) :
    Keeps (logAndApply v false edit) d (fun _ d' => SameCurrent d d') fun v' d' =>
      SameCurrent d d' ∧ v'.manifestFileNumber = v.manifestFileNumber := by
  have hcur : Path.db (descriptorFileName v.manifestFileNumber) ≠ .db currentFileName := fun h =>
    descriptor_ne_current _ (Path.db.inj h)
  refine Safe.except (Q := fun _ d' => SameCurrent d d') (Rules.Keeps.onFailure (fun _ d' => SameCurrent d d')
    ?_ fun _ t hI hsame => Safe.exceptPure hI hsame) ?_
  · show Keeps (Fs.write _ _) d _ _
    exact (Rules.keeps_write _ hI (fun _ _ => hcur) fun _ => hcur).ends
      (fun _ _ h => sameCurrent_of_only h hcur) fun _ _ h => sameCurrent_of_only h.1 hcur
  · rintro - d₁ hI₁ hsame
    exact Safe.exceptPure hI₁ ⟨hsame, rfl⟩

/-! ### The other files -/

theorem keeps_buildTable {number : ℕ} {entries : List Entry} (hI : CurrentOk d) :
    Keeps (buildTable number entries) d (fun _ _ => True) fun _ d' => SameCurrent d d' := by
  have hcur : Path.db (tableFileName number) ≠ .db currentFileName := (@numbered_ne d number _).1
  show Keeps (if _ then _ else _) d _ _
  split_ifs
  · refine Safe.except ((Rules.keeps_openWrite hI numbered_ne).ends (fun _ _ _ => trivial)
      fun _ _ h => h) ?_
    rintro - d₁ hI₁ ⟨honly₁, -⟩
    refine Rules.Keeps.onFailure (fun _ _ => True) ?_ fun _ t hI _ =>
      Rules.keeps_remove hI numbered_ne fun _ _ => trivial
    refine Safe.except ((Rules.keeps_write _ hI₁ (fun _ _ => hcur) fun _ => hcur).ends
      (fun _ _ _ => trivial) fun _ _ h => h) ?_
    rintro - d₂ hI₂ ⟨honly₂, -⟩
    refine Safe.except ((keeps_same (c := .close _) hI₂ trivial rfl).ends (fun _ _ _ => trivial)
      fun _ _ h => h) ?_
    rintro - d₃ hI₃ rfl
    refine Safe.except ((keeps_same (c := .syncDirectory) hI₃ trivial rfl).ends (fun _ _ _ => trivial)
      fun _ _ h => h) ?_
    rintro - d₄ hI₄ rfl
    refine Safe.except (Rules.keeps_read hI₄ trivial fun _ => trivial) ?_
    rintro ⟨pieces, failure⟩ d₅ hI₅ ⟨rfl, -⟩
    cases failure with
    | some status => exact Safe.throw hI₅ trivial
    | none =>
      exact Safe.exceptPure hI₅ ((sameCurrent_of_only honly₁ hcur).trans (sameCurrent_of_only honly₂ hcur))
  · exact Safe.exceptPure hI rfl

/-- What recovery of a log keeps: CURRENT, and the number of the next manifest. -/
def Recovers (d : Disk) (s s' : Replayed) (d' : Disk) : Prop :=
  SameCurrent d d' ∧ s'.versions.manifestFileNumber = s.versions.manifestFileNumber

theorem keeps_writeLevel0Table {mem : MemTable} {s : Replayed} (hI : CurrentOk d) :
    Keeps (writeLevel0Table mem s) d (fun _ _ => True) (Recovers d s) := by
  refine Safe.except (keeps_buildTable hI) ?_
  rintro - d₁ hI₁ hsame
  exact Safe.exceptPure hI₁ ⟨hsame, rfl⟩

theorem keeps_writeLast {mem : Option MemTable} {s : Replayed} (hI : CurrentOk d) :
    Keeps (writeLast mem s) d (fun _ _ => True) (Recovers d s) := by
  cases mem with
  | none => exact Safe.exceptPure hI ⟨rfl, rfl⟩
  | some mem => exact keeps_writeLevel0Table hI

theorem keeps_finishLog {log : ℕ} {damaged : Bool} {mem : Option MemTable} {s : Replayed}
    (hI : CurrentOk d) : Keeps (finishLog log damaged mem s) d (fun _ _ => True) (Recovers d s) := by
  show Keeps (if _ then _ else _) d _ _
  split_ifs
  · exact Safe.throw hI trivial
  · exact keeps_writeLast hI

theorem keeps_replayPieces {log : ℕ} {full : ℕ → Bool} {failed : Bool} (pieces : List Piece) :
    ∀ {index : ℕ} {mem : Option MemTable} {s : Replayed} {d : Disk}, CurrentOk d →
      Keeps (replayPieces log full failed index mem pieces s) d (fun _ _ => True) (Recovers d s) := by
  induction pieces with
  | nil =>
    intro index mem s d hI
    rw [replayPieces]
    exact keeps_finishLog hI
  | cons piece pieces ih =>
    intro index mem s d hI
    cases piece with
    | batch record =>
      rw [replayPieces]
      by_cases hfull : full index = true
      · rw [if_pos hfull]
        refine Safe.except (keeps_writeLevel0Table hI) ?_
        rintro s₁ d₁ hI₁ ⟨hsame₁, hnumber₁⟩
        refine (ih hI₁).ends (fun _ _ h => h) ?_
        rintro s₂ d₂ ⟨hsame₂, hnumber₂⟩
        exact ⟨hsame₁.trans hsame₂, hnumber₂.trans hnumber₁⟩
      · rw [if_neg hfull]
        exact (ih hI).ends (fun _ _ h => h) fun _ _ h => h
    | part =>
      rw [replayPieces]
      exact keeps_finishLog hI
    | record edit =>
      unfold replayPieces
      exact Safe.throw hI trivial
    | entry e =>
      unfold replayPieces
      exact Safe.throw hI trivial
    | text t =>
      unfold replayPieces
      exact Safe.throw hI trivial

theorem keeps_recoverLogFile {full : ℕ → ℕ → Bool} {s : Replayed} {log : ℕ} (hI : CurrentOk d) :
    Keeps (recoverLogFile full s log) d (fun _ _ => True) (Recovers d s) := by
  refine Safe.except (Rules.keeps_read hI trivial fun _ => trivial) ?_
  rintro ⟨pieces, failure⟩ d₁ hI₁ ⟨rfl, -⟩
  refine Safe.except (keeps_replayPieces pieces hI₁) ?_
  rintro s₁ d₂ hI₂ hrecovers
  exact Safe.exceptPure hI₂ hrecovers

/-- **The cleanup** keeps the manifest that CURRENT names. -/
theorem keeps_removeObsoleteFiles {v : VersionSet} {live : Finset ℕ} (hI : CurrentOk d)
    (hnames : Names d v.manifestFileNumber) :
    Keeps (removeObsoleteFiles v live) d E fun _ d' => SameCurrent d d' := by
  -- a name that is not kept is neither CURRENT nor that manifest
  have hother : ∀ name, keeps v live name = false → Path.db name ≠ .db currentFileName ∧
      Path.db name ≠ .db (descriptorFileName v.manifestFileNumber) := by
    intro name hkeep
    constructor
    · intro heq
      rw [Path.db.inj heq] at hkeep
      cases hkeep
    · intro heq
      rw [Path.db.inj heq, keeps, parseFileName_descriptor] at hkeep
      cases hnumber : parseNumber (sixDigits v.manifestFileNumber) with
      | none =>
        rw [hnumber] at hkeep
        cases hkeep
      | some k =>
        rw [hnumber, eq_of_parseNumber_sixDigits hnumber] at hkeep
        simp at hkeep
  refine Safe.lift (Rules.keeps_listDirectory hI trivial) ?_
  rintro (status | names) d₁ hI₁ hlist
  · obtain rfl : d₁ = d := hlist
    exact Safe.exceptPure hI₁ rfl
  · obtain ⟨rfl, -⟩ := hlist
    have hloop : Keeps ((names.filter fun name => !keeps v live name).forM fun name => Fs.remove (.db name))
        d₁ E fun _ d' => SameCurrent d₁ d' ∧ ∀ name ∈ ([] : List FileName), keeps v live name = false := by
      refine Safe.exceptForM (fun rest d' => SameCurrent d₁ d' ∧ ∀ name ∈ rest, keeps v live name = false)
        ?_ _ hI₁ ⟨rfl, fun name hname => by simpa using (List.mem_filter.mp hname).2⟩
      intro name rest d₂ hI₂ hJ
      obtain ⟨hsame, hrest⟩ := hJ
      obtain ⟨hcur, hman⟩ := hother name (hrest name List.mem_cons_self)
      refine Rules.keeps_remove hI₂ ⟨hcur, fun n hn => ?_⟩ fun d₃ hd₃ => ⟨?_, fun name hname =>
        hrest name (List.mem_cons_of_mem _ hname)⟩
      · rw [hsame.names] at hn
        rw [hn.unique hnames]
        exact hman
      · rcases hd₃ with rfl | rfl
        · exact hsame.trans (Function.update_of_ne hcur.symm _ _)
        · exact hsame
    exact Rules.Keeps.ends hloop (fun _ _ h => h) fun _ _ h => h.1

/-! ### Processes -/

/-- `recover` creates a database only where CURRENT is not. -/
theorem keeps_findDb {dbname : String} {opts : OpenOptions} (hI : CurrentOk d) :
    Keeps (findDb dbname opts) d (fun _ _ => True) fun _ _ => True := by
  refine Safe.except ((keeps_same (c := .createDirectory) hI trivial rfl).ends (fun _ _ _ => trivial)
    fun _ _ h => h) ?_
  rintro - d₁ hI₁ rfl
  refine Safe.except (Q := fun _ _ => True)
    (Rules.keeps_change (c := .lockFile) hI₁ trivial (fun _ _ => trivial) fun _ _ _ => trivial) ?_
  rintro - d₂ hI₂ -
  refine Safe.except (Q := fun type d' => type = .missing → d' (.db currentFileName) = none) ?_ ?_
  · have hask : Safe currentRules.step currentRules.inv currentRules.guard
        (Program.ask (Call.pathType (.db currentFileName))) d₂
        fun type d' => type = .missing → d' (.db currentFileName) = none := by
      refine Safe.ask hI₂ trivial fun type d' h => ⟨currentRules.sound hI₂ (c := .pathType _) trivial h, fun hmissing => ?_⟩
      obtain ⟨⟨rfl, -⟩, hsees⟩ := h
      exact hsees rfl hmissing
    exact Safe.bind hask fun type d' hI' hr => ⟨hI', hr⟩
  · intro type d₃ hI₃ htype
    by_cases hmissing : type = .missing
    · rw [if_pos hmissing]
      split_ifs
      · exact Safe.throw hI₃ trivial
      · refine Safe.except ((Rules.keeps_listDirectory hI₃ trivial).ends (fun _ _ _ => trivial)
          fun _ _ h => h) ?_
        rintro names d₄ hI₄ ⟨rfl, -⟩
        split_ifs
        · exact Safe.throw hI₄ trivial
        · exact keeps_newDb hI₄ (htype hmissing)
    · rw [if_neg hmissing]
      split_ifs
      · exact Safe.throw hI₃ trivial
      · exact Safe.exceptPure hI₃ trivial

theorem keeps_recoverDb {full : ℕ → ℕ → Bool} (hI : CurrentOk d) :
    Keeps (recoverDb full) d (fun _ _ => True) fun s d' =>
      ∀ n, Names d' n → n < s.versions.manifestFileNumber := by
  refine Safe.except (keeps_recoverVersions hI) ?_
  rintro v d₁ hI₁ ⟨rfl, habove⟩
  refine Safe.except ((Rules.keeps_listDirectory hI₁ trivial).ends (fun _ _ _ => trivial)
    fun _ _ h => h) ?_
  rintro names d₂ hI₂ ⟨rfl, -⟩
  refine Safe.except (Q := fun _ d' => d' = d₂) (Rules.keeps_ofExcept hI₂ (fun _ _ => rfl)
    fun _ _ => trivial) ?_
  rintro logs d₃ hI₃ rfl
  refine Safe.except (Q := fun (s : Replayed) d' => ∀ n, Names d' n → n < s.versions.manifestFileNumber) ?_ ?_
  · refine Safe.exceptFoldlM (fun _ (s : Replayed) d' => ∀ n, Names d' n → n < s.versions.manifestFileNumber) ?_
      logs hI₃ habove
    intro log rest s d₄ hI₄ hJ
    refine (keeps_recoverLogFile hI₄).ends (fun _ _ h => h) ?_
    rintro s' d₅ ⟨hsame, hnumber⟩ n hn
    rw [hnumber]
    exact hJ n (hsame.names.mp hn)
  · intro s d₄ hI₄ hs
    exact Safe.exceptPure hI₄ hs

/-- **Opening a database** leaves CURRENT naming the manifest of the process. -/
theorem keeps_openDb {dbname : String} {opts : OpenOptions} {full : ℕ → ℕ → Bool} (hI : CurrentOk d) :
    Keeps (openDb dbname opts full) d (fun _ _ => True) fun v d' => Names d' v.manifestFileNumber := by
  refine Safe.except (keeps_findDb hI) ?_
  rintro - d₁ hI₁ -
  refine Safe.except (keeps_recoverDb hI₁) ?_
  intro s d₂ hI₂ habove
  refine Safe.except ((Rules.keeps_openWrite hI₂ numbered_ne).ends (fun _ _ _ => trivial)
    fun _ _ h => h) ?_
  rintro - d₃ hI₃ ⟨honly, -⟩
  have hsame : SameCurrent d₂ d₃ := sameCurrent_of_only honly (@numbered_ne d₂ _ _).1
  refine Safe.except (keeps_logAndApply_first hI₃ fun n hn => habove n (hsame.names.mp hn)) ?_
  intro v d₄ hI₄ hnames
  refine Safe.except (keeps_removeObsoleteFiles hI₄ hnames) ?_
  rintro - d₅ hI₅ hsame'
  exact Safe.exceptPure hI₅ (hsame'.names.mpr hnames)

theorem keeps_act {v : VersionSet} {action : Action} (hI : CurrentOk d)
    (hnames : Names d v.manifestFileNumber) :
    Keeps (act v action) d E fun v' d' => Names d' v'.manifestFileNumber := by
  cases action with
  | edit edit nextFileNumber lastSequence =>
    refine Safe.lift (keeps_logAndApply_later hI) ?_
    rintro (status | v') d₁ hI₁ hr
    · exact Safe.exceptPure hI₁ ((show SameCurrent d d₁ from hr).names.mpr hnames)
    · obtain ⟨hsame, hnumber⟩ := hr
      refine Safe.exceptPure hI₁ ?_
      rw [hnumber]
      exact hsame.names.mpr hnames
  | cleanup live =>
    refine Safe.except (keeps_removeObsoleteFiles hI hnames) ?_
    rintro - d₁ hI₁ hsame
    exact Safe.exceptPure hI₁ (hsame.names.mpr hnames)

/-- **A process** keeps the rules from start to end. -/
theorem keeps_process {dbname : String} {opts : OpenOptions} {full : ℕ → ℕ → Bool} {actions : List Action}
    (hI : CurrentOk d) :
    Keeps (process dbname opts full actions) d (fun _ _ => True) fun v d' => Names d' v.manifestFileNumber := by
  show Keeps (openDb dbname opts full >>= fun v => actions.foldlM act v) d _ _
  refine Safe.except (keeps_openDb hI) ?_
  intro v d₁ hI₁ hnames
  exact Safe.exceptFoldlM (fun _ (v : VersionSet) d' => Names d' v.manifestFileNumber)
    (fun action rest v d' hI' hJ => keeps_act hI' hJ) actions hI₁ hnames

end Programs

/-! ## Histories -/

/-- The files that histories lead to: processes that open the database and work on it, each
    stopped at any point, one after the other. -/
inductive Reached (step : (c : Call) → Disk → Answer c → Disk → Prop) (start : Disk) : Disk → Prop
  | start : Reached step start start
  | run {d d' : Disk} {dbname : String} {opts : OpenOptions} {full : ℕ → ℕ → Bool} {actions : List Action}
      {rest : Program Answer (Except Status VersionSet)} (h : Reached step start d)
      (hrun : Reaches step (process dbname opts full actions).run d rest d') : Reached step start d'
  | stop {d d' : Disk} (h : Reached step start d) (hstop : Stops d d') : Reached step start d'

/-- What was synced outlasts the process. -/
theorem Stops.currentOk {d d' : Disk} (h : Stops d d') (hI : CurrentOk d) : CurrentOk d' := by
  intro hcur
  rcases h (.db currentFileName) with ⟨-, hnone⟩ | ⟨f, k, hf, hd'⟩
  · rw [hnone] at hcur
    cases hcur
  · obtain ⟨n, hn, g, hg, hs⟩ := hI (by rw [hf]; rfl)
    refine ⟨n, ?_, ?_⟩
    · obtain rfl := Option.some.inj (hf.symm.trans hn)
      rcases hd' with hd' | ⟨hk, -⟩
      · rw [List.take_nil] at hd'
        exact hd'
      · exact absurd hk (Nat.not_lt_zero k)
    · rcases h (.db (descriptorFileName n)) with ⟨hnone, -⟩ | ⟨g', k', hg', hm⟩
      · rw [hnone] at hg
        cases hg
      · obtain rfl := Option.some.inj (hg.symm.trans hg')
        rcases hm with hm | ⟨-, hm⟩
        · exact ⟨_, hm, hs.append _⟩
        · exact ⟨_, hm, hs.append _⟩

theorem Reached.currentOk {start d : Disk} (hstart : start (.db currentFileName) = none)
    (h : Reached Step start d) : CurrentOk d := by
  induction h with
  | start =>
    intro hcur
    rw [hstart] at hcur
    cases hcur
  | run _ hrun ih => exact (Safe.reaches (keeps_process ih) hrun).inv
  | stop _ hstop ih => exact hstop.currentOk ih

/-- A call that keeps the rules leaves a CURRENT where there is one. -/
theorem created_of_reaches {d d' : Disk} {dbname : String} {opts : OpenOptions} {full : ℕ → ℕ → Bool}
    {actions : List Action} {rest : Program Answer (Except Status VersionSet)} (hI : CurrentOk d)
    (hrun : Reaches Step (process dbname opts full actions).run d rest d')
    (hcur : (d (.db currentFileName)).isSome) : (d' (.db currentFileName)).isSome := by
  have hkeeps : Keeps (process dbname opts full actions) d (fun _ _ => True)
      fun v d' => Names d' v.manifestFileNumber := keeps_process hI
  have hsafe := Safe.invariant (fun d => (d (.db currentFileName)).isSome) hkeeps hcur
    fun c t r t' _ hG hcur hstep => ?_
  · exact (hsafe.reaches hrun).inv.2
  · cases c with
    | change c => exact Allowed.created hG hstep.1 hcur
    | lostType => exact (hstep.1 : t' = t) ▸ hcur
    | pathType p => exact hstep.1.1 ▸ hcur
    | listDirectory => exact hstep.1.1 ▸ hcur
    | fileSize p => exact hstep.1.1 ▸ hcur
    | read p => exact hstep.1.1 ▸ hcur

/-- **CURRENT and its manifest**, in every history in which CURRENT is seen where it is. In every
    state, once CURRENT is there, it names a manifest that is there and whose synced records are
    sufficient; a process leaves a CURRENT that is there, and it opens no file for writing that
    CURRENT names. -/
theorem current_names_manifest {start d : Disk} (hstart : start (.db currentFileName) = none)
    (h : Reached Step start d) :
    ((d (.db currentFileName)).isSome → ∃ n, Names d n ∧ Manifest d n) ∧
    ∀ dbname opts full actions rest d', Reaches Step (process dbname opts full actions).run d rest d' →
      ((d (.db currentFileName)).isSome → (d' (.db currentFileName)).isSome) ∧
      ∀ p next, rest = .call (.change (.openWrite p)) next →
        ∀ n, Names d' n → p ≠ .db (descriptorFileName n) := by
  have hI := h.currentOk hstart
  refine ⟨hI, fun dbname opts full actions rest d' hrun => ⟨created_of_reaches hI hrun, ?_⟩⟩
  rintro p next rfl
  have hguard : Guard (.change (.openWrite p)) d' := (Safe.reaches (keeps_process hI) hrun).2.1
  exact hguard.2

/-! ## Where CURRENT is not seen -/

section Runs

variable {d d' : Disk} {α : Type}

theorem Disk.modify_update (d : Disk) (p : Path) (f : File) (g : File → File) :
    Disk.modify (Function.update d p (some f)) p g = Function.update d p (some (g f)) := by
  rw [Disk.modify, Function.update_self, Function.update_idem]
  rfl

theorem reaches_change {c : Change} (h : c.Does d (.ok ()) d') :
    Reaches Step (Fs.change c).run d (.done (.ok ())) d' := by
  have hstep : Step (.change c) d (.ok ()) d' := ⟨h, trivial⟩
  exact .call hstep (.refl _ _)

theorem reaches_onFailure {p : Fs α} {cleanup : Fs Unit} {a : α}
    (h : Reaches Step p.run d (.done (.ok a)) d') :
    Reaches Step (Fs.onFailure p cleanup).run d (.done (.ok a)) d' := by
  have hlift : Reaches Step (ExceptT.lift p.run : Fs _).run d (.done (.ok (.ok a))) d' :=
    (h.bind _).trans (.refl _ _)
  exact hlift.except (.refl _ _)

/-- Everything is written and synced. -/
theorem reaches_write (d : Disk) (p : Path) (pieces : List Piece) :
    Reaches Step (Fs.write p pieces).run (Function.update d p (some ⟨[], []⟩)) (.done (.ok ()))
      (Function.update d p (some ⟨pieces, []⟩)) := by
  have hloop : ∀ unsynced, Reaches Step (pieces.forM (Fs.append p)).run
      (Function.update d p (some ⟨[], unsynced⟩)) (.done (.ok ()))
      (Function.update d p (some ⟨[], unsynced ++ pieces⟩)) := by
    induction pieces with
    | nil =>
      intro unsynced
      rw [List.append_nil]
      exact .refl _ _
    | cons piece pieces ih =>
      intro unsynced
      have happend : Reaches Step (Fs.append p piece).run (Function.update d p (some ⟨[], unsynced⟩))
          (.done (.ok ())) (Function.update d p (some ⟨[], unsynced ++ [piece]⟩)) :=
        reaches_change (c := .append p piece)
          (Or.inl (Disk.modify_update d p ⟨[], unsynced⟩ fun f => { f with unsynced := f.unsynced ++ [piece] }).symm)
      have hrest := ih (unsynced ++ [piece])
      rw [List.append_assoc] at hrest
      exact happend.except hrest
  refine (hloop []).except (reaches_change (c := .sync p) ⟨pieces.length, ?_, fun _ f hf => ?_⟩)
  · rw [Disk.sync, Disk.modify_update]
    simp
  · rw [Function.update_self] at hf
    obtain rfl := Option.some.inj hf
    exact le_rfl

theorem reaches_same {c : Change} (h : c.Does d (.ok ()) d) :
    Reaches Step (Fs.change c).run d (.done (.ok ())) d := reaches_change h

/-- CURRENT is written. -/
theorem reaches_setCurrentFile (d : Disk) (n : ℕ) :
    Reaches Step (setCurrentFile n).run d (.done (.ok ()))
      (Function.update (Function.update d (.db (tempFileName n)) none) (.db currentFileName)
        (some ⟨[.text (descriptorFileName n), .text ['\n']], []⟩)) := by
  refine reaches_onFailure ?_
  refine Reaches.except (reaches_change (c := .openWrite _) (Or.inl rfl)) ?_
  refine Reaches.except (reaches_write d _ _) ?_
  refine Reaches.except (reaches_same (c := .close _) rfl) ?_
  refine Reaches.except (reaches_change (c := .rename _ _)
    (Or.inl ⟨_, Function.update_self _ _ _, rfl⟩)) ?_
  rw [Disk.rename, Function.update_idem]
  exact reaches_same (c := .syncDirectory) rfl

/-- A database is created. -/
theorem reaches_newDb (d : Disk) :
    Reaches Step newDb.run d (.done (.ok ()))
      (Function.update (Function.update (Function.update d (.db (descriptorFileName 1))
        (some ⟨[.record newDbEdit], []⟩)) (.db (tempFileName 1)) none) (.db currentFileName)
        (some ⟨[.text (descriptorFileName 1), .text ['\n']], []⟩)) := by
  refine Reaches.except (reaches_change (c := .openWrite _) (Or.inl rfl)) ?_
  refine Reaches.except (a := ()) (reaches_onFailure ?_) (reaches_setCurrentFile _ 1)
  refine Reaches.except (reaches_write d _ _) ?_
  exact reaches_same (c := .close _) rfl

/-- The options that create a database where there is none. -/
def creating : OpenOptions := ⟨true, false⟩

/-- The way to `new_db`: `path_type` says that CURRENT is missing, and no data is listed. -/
theorem reaches_creation {dbname : String} {step : (c : Call) → Disk → Answer c → Disk → Prop} (names : List FileName)
    (hdirectory : step (.change .createDirectory) d (.ok ()) d)
    (hlock : step (.change .lockFile) d (.ok ()) d)
    (hmissing : step (.pathType (.db currentFileName)) d .missing d)
    (hlist : step .listDirectory d (.ok names) d) (hdata : countDataFiles names = 0) :
    Reaches step (findDb dbname creating).run d newDb.run d := by
  refine .call hdirectory (.call hlock (.call hmissing (.call hlist ?_)))
  show Reaches step (if 0 < countDataFiles names then _ else newDb : Fs Unit).run d _ d
  rw [if_neg (by omega)]
  exact .refl _ _

end Runs

/-- The files of a process that stopped once it had created a database. -/
def createdDisk : Disk :=
  Function.update (Function.update (Function.update (fun _ => none) (.db (descriptorFileName 1))
    (some ⟨[.record newDbEdit], []⟩)) (.db (tempFileName 1)) none) (.db currentFileName)
    (some ⟨[.text (descriptorFileName 1), .text ['\n']], []⟩)

theorem names_createdDisk : Names createdDisk 1 := Function.update_self _ _ _

theorem createdDisk_of_ne {name : FileName} (hcur : name ≠ currentFileName) :
    createdDisk (.db name) =
      if name = descriptorFileName 1 then some ⟨[.record newDbEdit], []⟩ else none := by
  have htemp : descriptorFileName 1 ≠ tempFileName 1 := (numbered_ne_descriptor _ _ _).symm
  rw [createdDisk, Function.update_of_ne (fun h => hcur (Path.db.inj h))]
  by_cases ht : name = tempFileName 1
  · rw [ht, Function.update_self, if_neg htemp.symm]
  · rw [Function.update_of_ne (fun h => ht (Path.db.inj h))]
    split_ifs with hm
    · rw [hm, Function.update_self]
    · rw [Function.update_of_ne (fun h => hm (Path.db.inj h))]

theorem lists_createdDisk : Lists createdDisk [currentFileName, descriptorFileName 1] := by
  intro name _
  by_cases hcur : name = currentFileName
  · subst hcur
    exact iff_of_true List.mem_cons_self (by rw [names_createdDisk]; rfl)
  · rw [createdDisk_of_ne hcur, List.mem_cons, List.mem_singleton, or_iff_right hcur]
    split_ifs with hm
    · exact iff_of_true hm rfl
    · exact iff_of_false hm Bool.false_ne_true

theorem reached_createdDisk (dbname : String) (full : ℕ → ℕ → Bool) :
    ∃ rest, Reaches Step (process dbname creating full []).run (fun _ => none) rest createdDisk := by
  have hcreation : Reaches Step (findDb dbname creating).run (fun _ => none) newDb.run (fun _ => none) := by
    refine reaches_creation [] ⟨rfl, trivial⟩ ⟨Or.inl rfl, trivial⟩
      ⟨⟨rfl, fun h => absurd rfl h⟩, fun _ _ => rfl⟩ ⟨⟨rfl, fun names hnames => ?_⟩, trivial⟩ rfl
    obtain rfl := Except.ok.inj hnames
    exact fun name _ => iff_of_false List.not_mem_nil Bool.false_ne_true
  exact ⟨_, ((hcreation.trans (reaches_newDb _)).bind _).bind _⟩

/-- The manifest of the database just created. -/
theorem current_names_manifest_created : ∃ n, Names createdDisk n ∧ Manifest createdDisk n := by
  obtain ⟨rest, hrun⟩ := reached_createdDisk "db" fun _ _ => false
  exact (current_names_manifest rfl (.run .start hrun)).1 (by rw [names_createdDisk]; rfl)

/-- **A database lost at the next open**: CURRENT names the manifest of the database just created,
    `path_type` fails, and the manifest is opened for writing. -/
theorem manifest_truncated : ∃ d next, Reached Performs (fun _ => none) d ∧ Names d 1 ∧
    Reaches Performs (process "db" creating (fun _ _ => false) []).run d
      (.call (.change (.openWrite (.db (descriptorFileName 1)))) next) d := by
  obtain ⟨rest, hrun⟩ := reached_createdDisk "db" fun _ _ => false
  have hcreation : Reaches Performs (findDb "db" creating).run createdDisk newDb.run createdDisk := by
    refine reaches_creation [currentFileName, descriptorFileName 1] rfl (Or.inl rfl)
      ⟨rfl, fun h => absurd rfl h⟩ ⟨rfl, fun names hnames => ?_⟩ (by decide)
    obtain rfl := Except.ok.inj hnames
    exact lists_createdDisk
  exact ⟨createdDisk, _, .run .start (hrun.mono fun _ _ _ _ h => h.1), names_createdDisk,
    (hcreation.bind _).bind _⟩

end Ambar.Storage
