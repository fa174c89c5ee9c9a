import Antegen.VersionOperations

/-!
# Commands of the tool

What each command of the tool does. The steps that it makes, wherever it fails, write no other
files than those named beside it. Where it reports success, the links lead to the version, and
what is there is known to the byte.
-/
namespace Antegen.Cli

open Interrupted

section ToolCommands

variable {sides : List Side} {m : Machine} {given : Option Text} {s : Disk}

/-- No version was given, and the installed one is not older than the latest. -/
def UpToDate (m : Machine) (given : Option Text) (s : Disk) (chosen : Text) : Prop :=
  given = none ∧ ¬ versionLessThan ((getInstalledVersion s).getD m.currentVersion) chosen

/-- The files an update writes: the download, the chosen version, and, where the command is no
link yet, the version of the running command. -/
def UpdateWrites (m : Machine) (given : Option Text) (s : Disk) (t : Path) : Prop :=
  ∃ chosen, Chosen m.fetchLatestVersion given chosen ∧ ¬ UpToDate m given s chosen ∧
    (t = tempPath "antegen-update".toList ∨ t = versionedBinaryPath chosen ∨
      s.Holds binaryPath ∧ t = versionedBinaryPath m.currentVersion)

/-- The chosen version is active. The command that was no link is there under the version of the
running command, also where that is the chosen one. -/
def Updated (m : Machine) (given : Option Text) (s s' : Disk) : Prop :=
  ∃ chosen, Chosen m.fetchLatestVersion given chosen ∧
    (UpToDate m given s chosen ∧ s'.files = s.files ∨
      ¬ UpToDate m given s chosen ∧ s'.Active (versionedBinaryPath chosen) ∧
        (s.Holds binaryPath →
          s'.files (versionedBinaryPath m.currentVersion) = s.files binaryPath) ∧
        (¬ (s.Holds binaryPath ∧ chosen = m.currentVersion) →
          Downloaded m (m.buildDownloadUrl chosen) (s'.files (versionedBinaryPath chosen))))

theorem plain_iff : (s.exists? binaryPath && !s.isSymlink binaryPath) = true ↔
    s.Holds binaryPath := by
  cases hfile : s.files binaryPath with
  | none => simp [Disk.exists?, Disk.binary, Disk.resolve, Disk.followLinks, Disk.Holds, hfile]
  | some entry =>
    cases entry with
    | file bytes executable =>
      simp [Disk.exists?, Disk.binary, Disk.resolve, Disk.followLinks, Disk.maxLinks,
        Disk.isSymlink, Disk.readLink, Disk.Holds, hfile]
    | link target => simp [Disk.isSymlink, Disk.readLink, Disk.Holds, hfile]

theorem installedVersion_of_plain (h : s.Holds binaryPath) :
    (getInstalledVersion s).getD m.currentVersion = m.currentVersion := by
  obtain ⟨bytes, executable, hfile⟩ := h
  simp [getInstalledVersion, Disk.readLink, hfile]

theorem versionedBinaryPath_inj {version version' : Text}
    (h : versionedBinaryPath version = versionedBinaryPath version') : version = version' :=
  List.append_cancel_left h

theorem update_does (hm : m.Named) (hs : s.Sound) (hv : ∀ v, given = some v → '/' ∉ v) :
    Does (Changes (UpdateWrites m given s) [.tool]) (· = s) (update m given)
      fun _ => Updated m given s := by
  have hside : Side.tool ∈ [Side.tool] := List.mem_cons_self
  have hlinked : binaryPath ∈ Side.tool.links := List.mem_cons_self
  refine Does.bind_read fun s' heq => ?_
  subst heq
  refine (requestedVersion_does m.fetchLatestVersion given).bind fun chosen => ?_
  refine Does.of_forall fun s'' hs'' => ?_
  obtain ⟨rfl, hchosen⟩ := hs''
  have hversion := hchosen.isVersion (fun _ h => latestVersion_isVersion hm h) hv
  have ht : Side.tool.Target (versionedBinaryPath chosen) := Or.inr ⟨chosen, hversion, rfl⟩
  refine Does.ite (fun hnewest => Does.pure fun s' heq => ?_) fun holder => ?_
  · subst heq
    exact ⟨chosen, hchosen, Or.inl ⟨hnewest, rfl⟩⟩
  have hwrites : ∀ t, (t = tempPath "antegen-update".toList ∨ t = versionedBinaryPath chosen ∨
      s''.Holds binaryPath ∧ t = versionedBinaryPath m.currentVersion) →
      UpdateWrites m given s'' t := fun t h => ⟨chosen, hchosen, holder, h⟩
  have hstays : ∀ s₁ s₂, Fills (UpdateWrites m given s'') [.tool] s₁ s₂ →
      s₁.files binaryPath = s''.files binaryPath → s₂.files binaryPath = s''.files binaryPath :=
    fun s₁ s₂ hfills hbinary => (hfills.links hlinked).trans hbinary
  -- until the links are moved, what is at `antegen` stays
  have hdownload : Does (Fills (UpdateWrites m given s'') [.tool]) Disk.Sound
      (downloadBinary m (m.buildDownloadUrl chosen) "antegen-update".toList) fun temp s =>
        temp = tempPath "antegen-update".toList ∧
          s.At (tempPath "antegen-update".toList) (Stored m (m.buildDownloadUrl chosen)) :=
    downloadBinary_does hside (hwrites _ (Or.inl rfl))
  refine (does_changes ((hdownload.stable hstays).from_eq ⟨hs, rfl⟩)).bind fun temp => ?_
  refine Does.of_forall fun s₁ hs₁ => ?_
  obtain ⟨⟨rfl, htemp⟩, hbinary₁⟩ := hs₁
  have hinstall : Does (Fills (UpdateWrites m given s'') [.tool])
      (Disk.At (tempPath "antegen-update".toList) (Stored m (m.buildDownloadUrl chosen)))
      (installBinaryTo (tempPath "antegen-update".toList) (Side.tool.versioned chosen))
      fun _ => Disk.At (Side.tool.versioned chosen) (Downloaded m (m.buildDownloadUrl chosen)) :=
    installBinaryTo_does hside hversion (hwrites _ (Or.inr (Or.inl rfl)))
      (hwrites _ (Or.inl rfl))
  refine Does.seq (does_changes ((hinstall.stable hstays).from_eq ⟨htemp, hbinary₁⟩)) ?_
  refine Does.bind_read fun s₂ hs₂ => ?_
  obtain ⟨hat, hbinary₂⟩ := hs₂
  have hplain : s₂.Holds binaryPath ↔ s''.Holds binaryPath := by
    unfold Disk.Holds
    rw [hbinary₂]
  refine Does.ite (fun hmoved => ?_) fun hmoved => ?_
  · have hold := plain_iff.mp hmoved
    obtain ⟨bytes, executable, hfile⟩ := hold
    have hcurrent := installedVersion_of_plain (m := m) (hplain.mp ⟨bytes, executable, hfile⟩)
    rw [hcurrent]
    have hmigrates := hwrites _ (Or.inr (Or.inr ⟨hplain.mp ⟨bytes, executable, hfile⟩, rfl⟩))
    have hstart : s₂.At (versionedBinaryPath chosen)
        (Downloaded m (m.buildDownloadUrl chosen)) ∧
        s₂.files binaryPath = some (.file bytes executable) := ⟨hat, hfile⟩
    refine ((migrate_does hside ht hm.current hmigrates (fun _ => Downloaded.ne_none) _).from_eq
      hstart).weaken (fun _ h => h) fun _ s₃ h => ?_
    obtain ⟨hactive, hold, hnew⟩ := h
    refine ⟨chosen, hchosen, Or.inr ⟨holder, hactive, fun _ => ?_, fun hne => hnew fun heq => ?_⟩⟩
    · rw [hold, ← hbinary₂, hfile]
    · exact hne ⟨hplain.mp ⟨bytes, executable, hfile⟩, versionedBinaryPath_inj heq⟩
  · refine ((activate_does hside ht fun _ => Downloaded.ne_none).from_eq hat).weaken
      (fun _ h => h) fun _ s₃ h => ?_
    have hlink : ¬ s''.Holds binaryPath := fun hholds =>
      hmoved (plain_iff.mpr (hplain.mpr hholds))
    exact ⟨chosen, hchosen, Or.inr ⟨holder, h.1, fun hholds => absurd hholds hlink, fun _ => h.2⟩⟩

/-- The version is active. A file that was there already is taken for it as it is. -/
def Provided (m : Machine) (version : Text) (s s' : Disk) : Prop :=
  s'.Active (versionedBinaryPath version) ∧
    Supplied m (m.buildDownloadUrl version) (s.files (versionedBinaryPath version))
      (s'.files (versionedBinaryPath version))

/-- A version is downloaded and written where none is. -/
def ProvideWrites (version : Text) (s : Disk) (t : Path) : Prop :=
  s.files (versionedBinaryPath version) = none ∧
    (t = tempPath "antegen-update".toList ∨ t = versionedBinaryPath version)

theorem ProvideWrites.of_none {version : Text}
    (h : s.files (versionedBinaryPath version) = none) :
    ProvideWrites version s (versionedBinaryPath version) ∧
      ProvideWrites version s (tempPath "antegen-update".toList) :=
  ⟨⟨h, Or.inr rfl⟩, h, Or.inl rfl⟩

/-- The binary of cargo is there already, that of a version is downloaded first. -/
def UsedCli (m : Machine) (version : Text) (s s' : Disk) : Prop :=
  if version = "cargo".toList then s'.Active cargoBin ∧ s'.files cargoBin = s.files cargoBin
  else Provided m (normalizeVersion version) s s'

theorem UsedCli.provided {version : Text} {s' : Disk} (h : UsedCli m version s s')
    (hother : version ≠ "cargo".toList) : Provided m (normalizeVersion version) s s' := by
  unfold UsedCli at h
  rwa [if_neg hother] at h

def UseCliWrites (version : Text) (s : Disk) (t : Path) : Prop :=
  version ≠ "cargo".toList ∧ ProvideWrites (normalizeVersion version) s t

theorem useCliVersion_does {version : Text} (hs : s.Sound) (hv : '/' ∉ version) :
    Does (Changes (UseCliWrites version s) [.tool]) (· = s)
      (useCliVersion m version) fun _ => UsedCli m version s := by
  have hside : Side.tool ∈ [Side.tool] := List.mem_cons_self
  unfold UsedCli
  refine Does.ite (fun hcargo => ?_) fun hother => ?_
  · simp only [if_pos hcargo]
    refine Does.bind_read fun s' heq => ?_
    subst heq
    refine (require_does _).bind fun _ => Does.of_forall fun s'' hs'' => ?_
    obtain ⟨rfl, hexists⟩ := hs''
    have hsome := (exists_slot hs .cargo).mp hexists
    have hactivate := activate_does (W := UseCliWrites version s'') hside
      (Or.inl ⟨rfl, rfl⟩) (E := (· = s''.files cargoBin)) fun e heq => heq ▸ hsome
    exact hactivate.from_eq ⟨rfl, hs⟩
  · simp only [if_neg hother]
    refine (useVersion_does hside (.normalize hv) fun hnone => ?_).from_eq ⟨rfl, hs⟩
    obtain ⟨hversion, htemp⟩ := ProvideWrites.of_none hnone
    exact ⟨⟨hother, hversion⟩, hother, htemp⟩

theorem ensureBinaryInstalled_does {version : Text} (hs : s.Sound) (hv : '/' ∉ version) :
    Does (Changes (ProvideWrites (normalizeVersion version) s) [.tool]) (· = s)
      (ensureBinaryInstalled m version) fun _ => Provided m (normalizeVersion version) s := by
  have hside : Side.tool ∈ [Side.tool] := List.mem_cons_self
  have hslot : Slot (versionedBinaryPath (normalizeVersion version)) :=
    .versioned .tool (.normalize hv)
  have ht : Side.tool.Target (versionedBinaryPath (normalizeVersion version)) :=
    Or.inr ⟨_, .normalize hv, rfl⟩
  have hcreate : Does (Changes (ProvideWrites (normalizeVersion version) s) [.tool])
      (s.Same ·) createDirAll fun _ => s.Same :=
    does_changes (attempt_does hside (fun _ hs' => hs'.skip) _)
  refine Does.seq (hcreate.weaken (fun _ heq => hs.same heq) fun _ _ h => h) ?_
  have hdownload := ensureDownloaded_does (W := ProvideWrites (normalizeVersion version) s)
    (m := m) hside (.normalize hv) ProvideWrites.of_none
    (m.buildDownloadUrl (normalizeVersion version))
  refine Does.seq ((does_changes hdownload).weaken (fun _ hs' => hs'.entry _) fun _ _ h => h) ?_
  refine Does.seq (activate_does hside ht fun _ => Supplied.ne_none) ?_
  exact Does.pure fun _ h => h

/-- The given version, or the latest, is provided. -/
def Installed (m : Machine) (given : Option Text) (s s' : Disk) : Prop :=
  ∃ chosen, Chosen m.fetchLatestVersion given chosen ∧ Provided m chosen s s'

def InstallWrites (m : Machine) (given : Option Text) (s : Disk) (t : Path) : Prop :=
  ∃ chosen, Chosen m.fetchLatestVersion given chosen ∧ ProvideWrites chosen s t

theorem install_does (hm : m.Named) (hs : s.Sound) (hv : ∀ v, given = some v → '/' ∉ v) :
    Does (Changes (InstallWrites m given s) [.tool]) (· = s) (install m given)
      fun _ => Installed m given s := by
  refine (requestedVersion_does m.fetchLatestVersion given).bind fun chosen => ?_
  refine Does.of_forall fun s' hs' => ?_
  obtain ⟨rfl, hchosen⟩ := hs'
  have hversion := hchosen.isVersion (fun _ h => latestVersion_isVersion hm h) hv
  have hinstalled := ensureBinaryInstalled_does (m := m) hs hversion.slash
  rw [normalizeVersion_of_isVersion hversion] at hinstalled
  have hwider := hinstalled.mono fun _ _ => Changes.mono
    (fun t ht => (⟨chosen, hchosen, ht⟩ : InstallWrites m given s' t)) fun _ hside => hside
  exact hwider.bind fun _ => Does.pure fun _ h => ⟨chosen, hchosen, h⟩

/-! ## The running command as a version -/

/-- The running binary is the active one under its version. A file of the same length that was
there is taken for it. -/
def ImportedCurrent (m : Machine) (s s' : Disk) : Prop :=
  s'.Active (versionedBinaryPath m.currentVersion) ∧ ∃ exe, m.currentExe = some exe ∧
    if s.sameLength (versionedBinaryPath m.currentVersion) exe then
      s'.files (versionedBinaryPath m.currentVersion) =
        s.files (versionedBinaryPath m.currentVersion)
    else ∃ bytes executable, s.binary exe = some (bytes, executable) ∧
      s'.files (versionedBinaryPath m.currentVersion) = some (.file bytes true)

def ImportWrites (m : Machine) (s : Disk) (t : Path) : Prop :=
  t = versionedBinaryPath m.currentVersion ∧ ∃ exe, m.currentExe = some exe ∧
    ¬ s.sameLength (versionedBinaryPath m.currentVersion) exe

theorem Disk.Same.sameLength {s' : Disk} (hs : s.Same s') (p q : Path) :
    s'.sameLength p q ↔ s.sameLength p q := by
  unfold Disk.sameLength Disk.contents
  rw [hs.binary, hs.binary]

/-- A file that is not there with the same length is no copy onto itself. -/
theorem copied_of_not_sameLength {t exe : Path} (hs : s.Sound) (ht : Slot t)
    (hlength : ¬ s.sameLength t exe) {e : Option Entry} (h : s.CopiedBinary exe t e) :
    ∃ bytes executable, s.binary exe = some (bytes, executable) ∧
      e = some (.file bytes true) := by
  obtain ⟨bytes, executable, hbinary, rfl⟩ := h
  refine ⟨bytes, executable, hbinary, ?_⟩
  have hother : ¬ s.resolve exe = some t := by
    intro hself
    have hsame : s.binary t = s.binary exe := by
      unfold Disk.binary
      rw [hself, resolve_slot hs ht]
    refine hlength ⟨bytes, ?_, bytes, ?_, rfl⟩
    · simp [Disk.contents, hsame, hbinary]
    · simp [Disk.contents, hbinary]
  rw [Disk.copied, if_neg hother]

theorem importCurrentBinary_does (hside : .tool ∈ sides) (hm : m.Named) (hs : s.Sound) :
    Does (Changes (ImportWrites m s) sides) (· = s) (importCurrentBinary m)
      fun _ => ImportedCurrent m s := by
  have hslot : Slot (versionedBinaryPath m.currentVersion) := .versioned .tool hm.current
  have ht : Side.tool.Target (versionedBinaryPath m.currentVersion) :=
    Or.inr ⟨_, hm.current, rfl⟩
  refine Does.bind (Q := fun exe s' => m.currentExe = some exe ∧ s' = s)
    (Does.ofOption fun _ _ h hs' => ⟨h, hs'⟩) fun exe => ?_
  have hcreate : Does (Changes (ImportWrites m s) sides)
      (fun s' => m.currentExe = some exe ∧ s' = s) createDirAll
      fun _ s' => m.currentExe = some exe ∧ s.Same s' :=
    (does_changes (attempt_does hside (fun _ hs' => ⟨hs'.1, hs'.2.skip⟩) _)).weaken
      (fun _ hs' => ⟨hs'.1, hs.same hs'.2⟩) fun _ _ h => h
  refine Does.seq hcreate (Does.bind_read fun s₁ hs₁ => ?_)
  obtain ⟨hexe, hsame⟩ := hs₁
  have hstart : ∀ s', s' = s₁ → s.Same s' := fun s' heq => heq ▸ hsame
  refine Does.ite (fun hlength => ?_) fun hlength => ?_
  · rw [hsame.sameLength] at hlength
    have hp : Side.tool.Stores (ImportWrites m s) (versionedBinaryPath m.currentVersion) :=
      ⟨⟨rfl, exe, hexe, hlength⟩, Or.inl ⟨_, hm.current, rfl⟩⟩
    have hcopy : Does (Fills (ImportWrites m s) sides) s.Same _ fun _ => Disk.At _ _ :=
      copy_does hside hp hslot exe "Failed to copy binary"
    refine Does.seq ((does_changes hcopy).weaken hstart fun _ _ h => h) ?_
    refine Does.seq (does_changes (permitCopied_does hside hp hslot exe)) ?_
    refine (activate_does hside ht fun _ => Disk.CopiedBinary.ne_none).weaken (fun _ h => h)
      fun _ s₂ h => ⟨h.1, exe, hexe, ?_⟩
    rw [if_neg hlength]
    exact copied_of_not_sameLength hs hslot hlength h.2
  · rw [hsame.sameLength, not_not] at hlength
    have hsome : s.files (versionedBinaryPath m.currentVersion) ≠ none := by
      obtain ⟨bytes, hbytes, -⟩ := hlength
      obtain ⟨binary, hbinary, -⟩ := Option.map_eq_some_iff.mp hbytes
      exact (exists_slot hs hslot).mp (by rw [Disk.exists?, hbinary, Option.isSome_some])
    have hactivate := activate_does (W := ImportWrites m s) hside ht
      (E := (· = s.files (versionedBinaryPath m.currentVersion))) fun e heq => heq ▸ hsome
    refine (hactivate.from_eq (hsame.entry _)).weaken (fun _ h => h)
      fun _ s₂ h => ⟨h.1, exe, hexe, ?_⟩
    rw [if_pos hlength]
    exact h.2

end ToolCommands

end Antegen.Cli
