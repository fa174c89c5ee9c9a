import Antegen.NodeCommands

/-!
# Runs of the version manager

What every sequence of commands keeps, with whatever failures, and what a command has done that
reports success.
-/
namespace Antegen.Cli

open Interrupted

/-- The files that `verify` writes. It looks for a node on the disk on which the tool has been
imported already. -/
def VerifyWrites (m : Machine) (s : Disk) (t : Path) : Prop :=
  ImportWrites m s t ∨ ImportNodeWrites m (importCurrentBinary m s).2 t

def Verified (m : Machine) (s s' : Disk) : Prop :=
  ImportedCurrent m s s' ∧ ImportedNode m (importCurrentBinary m s).2 s'

/-- The files that a command may write beside the links, wherever it fails. -/
def Command.Writes (m : Machine) (s : Disk) : Command → Path → Prop
  | update given => UpdateWrites m given s
  | install given => InstallWrites m given s
  | useCli version => UseCliWrites version s
  | verify => VerifyWrites m s
  | updateNode given false => NodeUpdateWrites m given s
  | updateNode _ true | installNode _ true => BuildWrites m
  | useNode version => UseNodeWrites m version s
  | installNode given false => NodeInstallWrites given s
  | start given => StartWrites m given s
  | run => RunWrites m s

/-- What a command has made of the disk where it has reported success. -/
def Command.Reached (m : Machine) (s s' : Disk) : Command → Prop
  | update given => Updated m given s s'
  | install given => Installed m given s s'
  | useCli version => UsedCli m version s s'
  | verify => Verified m s s'
  | updateNode given false => NodeUpdated m given s s'
  | updateNode _ true => NodeBuilt m s'
  | useNode version => UsedNode m version s s'
  | installNode given false => NodeInstalled m given s s'
  | installNode _ true => BuildInstalled m s'
  | start given => Started m given s s'
  | run => Ran m s s'

/-- The sides whose files and links a command changes. -/
def Command.sides : Command → List Side
  | update _ | install _ | useCli _ => [.tool]
  | verify => [.tool, .node]
  | updateNode _ _ | useNode _ | installNode _ _ | start _ | run => [.node]

/-- The version that a command is given. -/
def Command.version : Command → Option Text
  | update version | install version | updateNode version _ | installNode version _
  | start version => version
  | useCli version | useNode version => some version
  | verify | run => none

/-- A command on a machine, with what its operations meet. -/
structure Event where
  machine : Machine
  command : Command
  faults : List Fault

/-- Versions name files. -/
structure Event.Named (e : Event) : Prop where
  machine : e.machine.Named
  version : ∀ version, e.command.version = some version → '/' ∉ version

namespace Disk

def meets (s : Disk) (faults : List Fault) : Disk := { s with faults := faults }

def perform (s : Disk) (e : Event) : Except String Unit × Disk :=
  e.command.perform e.machine (s.meets e.faults)

def after (s : Disk) : List Event → Disk
  | [] => s
  | e :: events => (s.perform e).2.after events

/-- None of the commands writes the file, on the disk that it meets. -/
def Spares (s : Disk) (t : Path) : List Event → Prop
  | [] => True
  | e :: events => ¬ e.command.Writes e.machine (s.meets e.faults) t ∧
      (s.perform e).2.Spares t events

end Disk

section Commands

variable {W : Path → Prop} {m : Machine} {s s' : Disk} {t : Path}

/-- The active binary of the tool does not depend on the node. -/
theorem Disk.Active.kept (ht : Side.tool.Target t) (h : Changes W [.node] s s')
    (hs : s.Active t) : s'.Active t := by
  have hsame := h.unchanged (by simp : Side.tool ∉ [Side.node])
  refine ⟨hs.ready.stays ht h, ?_, ?_⟩
  · rw [hsame.links binaryPath List.mem_cons_self, hs.antegen]
  · rw [hsame.links antegenctlSymlinkPath (List.mem_cons_of_mem _ List.mem_cons_self),
      hs.antegenctl]

theorem ImportedCurrent.kept {u : Disk} (hm : m.Named) (h : Changes W [.node] s s')
    (hs : ImportedCurrent m u s) : ImportedCurrent m u s' := by
  have hsame := h.unchanged (by simp : Side.tool ∉ [Side.node])
  have hfile : s'.files (versionedBinaryPath m.currentVersion) =
      s.files (versionedBinaryPath m.currentVersion) := hsame.versions _ hm.current
  unfold ImportedCurrent
  rw [hfile]
  exact ⟨hs.1.kept (Or.inr ⟨_, hm.current, rfl⟩) h, hs.2⟩

theorem verify_does (hm : m.Named) (hs : s.Sound) :
    Does (Changes (VerifyWrites m s) [.tool, .node]) (· = s) (verify m)
      fun _ => Verified m s := by
  have htool : Side.tool ∈ [Side.tool] := List.mem_cons_self
  have hboth : [Side.tool] ⊆ [Side.tool, Side.node] ∧ [Side.node] ⊆ [Side.tool, Side.node] := by
    decide
  have hcurrent := ((importCurrentBinary_does htool hm hs).result).mono fun _ _ => Changes.mono
    (fun t h => (Or.inl h : VerifyWrites m s t)) hboth.1
  refine Does.seq hcurrent (Does.of_forall fun s₁ hs₁ => ?_)
  obtain ⟨himported, heq⟩ := hs₁
  have hnode : Does (Changes (ImportNodeWrites m s₁) [.node]) (· = s₁) (importNodeBinary m)
      fun _ => ImportedNode m s₁ :=
    importNodeBinary_does List.mem_cons_self hm himported.1.ready.sound
  have hkept := hnode.stable fun _ _ => ImportedCurrent.kept (u := s) hm
  have hwider := hkept.mono fun _ _ => Changes.mono
    (fun t h => (Or.inr (heq ▸ h) : VerifyWrites m s t)) hboth.2
  exact (hwider.from_eq ⟨rfl, himported⟩).weaken (fun _ h => h)
    fun _ _ h => ⟨h.2, heq ▸ h.1⟩

/-- What a command does: steps that write no files but its own, and, where it reports success,
what it was asked for. -/
theorem perform_does (hm : m.Named) (hs : s.Sound) (command : Command)
    (hv : ∀ version, command.version = some version → '/' ∉ version) :
    Does (Changes (command.Writes m s) command.sides) (· = s) (command.perform m)
      fun _ s' => command.Reached m s s' := by
  have hnode : Side.node ∈ [Side.node] := List.mem_cons_self
  cases command with
  | update given => exact update_does hm hs hv
  | install given => exact install_does hm hs hv
  | useCli version => exact useCliVersion_does hs (hv version rfl)
  | verify => exact verify_does hm hs
  | updateNode given isLocal =>
    cases isLocal with
    | false => exact updateNode_does hm hs hv
    | true => exact (updateLocalNode_does hm given).from_eq hs
  | useNode version => exact useNodeVersion_does hm hs (hv version rfl)
  | installNode given isLocal =>
    cases isLocal with
    | false => exact installNodeVersion_does hs hv
    | true => exact (installLocalVersion_does hm given).from_eq hs
  | start given => exact start_does hnode hm hs hv
  | run => exact run_does hnode hm hs

end Commands

/-! ## Runs -/

section Runs

variable {s : Disk} {t p : Path} {side : Side}

theorem Disk.Sound.meets (hs : s.Sound) (faults : List Fault) : (s.meets faults).Sound :=
  ⟨hs.plain, hs.linked, hs.tracked⟩

/-- What every change of a command keeps, the command keeps. -/
theorem perform_keeps {e : Event} (he : e.Named) (hs : s.Sound) {I : Disk → Prop}
    (hI : ∀ s₁ s₂, Changes (e.command.Writes e.machine (s.meets e.faults)) e.command.sides s₁ s₂ →
      I s₁ → I s₂) (hmeets : I (s.meets e.faults)) : I (s.perform e).2 :=
  kept hI ((perform_does he.machine (hs.meets e.faults) e.command he.version) _ rfl).1 hmeets

theorem perform_sound {e : Event} (he : e.Named) (hs : s.Sound) : (s.perform e).2.Sound :=
  perform_keeps he hs (fun _ _ => Changes.sound) (hs.meets e.faults)

/-- What each command keeps, commands keep. -/
theorem after_keeps {I : Disk → Prop} (events : List Event) (he : ∀ e ∈ events, e.Named)
    (hs : s.Sound) (hI : ∀ e ∈ events, ∀ s, s.Sound → I s → I (s.perform e).2) (h : I s) :
    (s.after events).Sound ∧ I (s.after events) := by
  induction events generalizing s with
  | nil => exact ⟨hs, h⟩
  | cons e events ih =>
    have hsound := perform_sound (he e List.mem_cons_self) hs
    have hstep := hI e List.mem_cons_self s hs h
    exact ih (fun e' he' => he e' (List.mem_cons_of_mem _ he')) hsound
      (fun e' he' => hI e' (List.mem_cons_of_mem _ he')) hstep

theorem after_sound (events : List Event) (he : ∀ e ∈ events, e.Named) (hs : s.Sound) :
    (s.after events).Sound :=
  (after_keeps (I := fun _ => True) events he hs (fun _ _ _ _ _ => trivial) trivial).1

/-- A machine without node releases and without a service. -/
def freshMachine : Machine where
  currentVersion := "v5.0.0".toList
  currentExe := none
  prod := true
  platformTarget := "x86_64-unknown-linux-gnu".toList
  releases := some ["node-v4.2.0".toList, "v5.1.0".toList]
  nodeReleases := some []
  download := fun _ => .ok [1, 2, 3]
  versionWords := fun bytes =>
    if bytes = [1, 2, 3] then some ["antegen-node".toList, "4.2.0".toList] else none
  workspaceRoot := none
  build := none
  serviceInstalled := false
  configured := true
  serviceInstalls := true
  serviceStarts := true

/-- The same machine with the command run from the version that the update installs. -/
def updatedMachine : Machine := { freshMachine with
  currentVersion := "v5.1.0".toList
  currentExe := some ".local/bin/antegen-v5.1.0".toList }

def emptyDisk : Disk := ⟨fun _ => none, none, []⟩

def firstUpdate : Event := ⟨freshMachine, .update none, []⟩

def nodeUse : Event := ⟨freshMachine, .useNode "v4.2.0".toList, []⟩

def nextVerify : Event := ⟨updatedMachine, .verify, []⟩

theorem emptyDisk_sound : emptyDisk.Sound :=
  ⟨fun _ _ _ => by simp [emptyDisk], fun _ _ _ _ h => absurd h (by simp [emptyDisk]),
    fun _ h => absurd h (by simp [emptyDisk])⟩

/-- A download of which only the first byte is written. -/
def cutUse : Event := ⟨freshMachine, .useCli "v5.1.0".toList, [.none, .none, .short 1]⟩

def nextUse : Event := ⟨freshMachine, .useCli "v5.1.0".toList, []⟩

/-- The versions of the samples name files. -/
structure SamplesNamed : Prop where
  update : firstUpdate.Named
  node : nodeUse.Named
  verify : nextVerify.Named
  cut : cutUse.Named
  next : nextUse.Named

theorem samplesNamed : SamplesNamed := by
  have hfive : '/' ∉ "v5.1.0".toList := by decide +kernel
  have hfour : '/' ∉ "v4.2.0".toList := by decide +kernel
  have hfresh : freshMachine.Named := by
    refine ⟨⟨by decide +kernel, by decide +kernel⟩, fun releases h => ?_, fun releases h => ?_,
      fun bytes words h => ?_⟩
    · obtain rfl := Option.some.inj h
      decide +kernel
    · obtain rfl := Option.some.inj h
      decide +kernel
    · by_cases hbytes : bytes = [1, 2, 3]
      · subst hbytes
        obtain rfl := Option.some.inj h
        decide +kernel
      · exact absurd ((if_neg hbytes).symm.trans h) (Option.some_ne_none words).symm
  have hupdated : updatedMachine.Named :=
    ⟨⟨by decide +kernel, hfive⟩, hfresh.releases, hfresh.nodeReleases, hfresh.words⟩
  have hgiven : ∀ {given version : Text}, '/' ∉ given → some given = some version →
      '/' ∉ version := by
    intro given version hslash h
    exact Option.some.inj h ▸ hslash
  exact ⟨⟨hfresh, fun _ h => absurd h (by simp [firstUpdate, Command.version])⟩,
    ⟨hfresh, fun _ h => hgiven hfour h⟩,
    ⟨hupdated, fun _ h => absurd h (by simp [nextVerify, Command.version])⟩,
    ⟨hfresh, fun _ h => hgiven hfive h⟩, ⟨hfresh, fun _ h => hgiven hfive h⟩⟩

/-- After any run, a command that reports success has done what it was asked for. What it has
found at a version it takes for the version. -/
theorem reported_reached (events : List Event) (he : ∀ e ∈ events, e.Named) (hs : s.Sound)
    {e : Event} (hnamed : e.Named) (hok : ((s.after events).perform e).1 = .ok ()) :
    e.command.Reached e.machine ((s.after events).meets e.faults)
      ((s.after events).perform e).2 := by
  have hsound := (after_sound events he hs).meets e.faults
  exact ((perform_does hnamed.machine hsound e.command hnamed.version) _ rfl).2 () hok

/-- The next use takes the byte for the version. An update replaces it. -/
theorem reported_reached_sample :
    (emptyDisk.after [cutUse, nextUse]).Active (versionedBinaryPath "v5.1.0".toList) ∧
    (emptyDisk.after [cutUse, nextUse]).files (versionedBinaryPath "v5.1.0".toList) =
      some (.file [1] false) ∧
    (emptyDisk.after [cutUse, firstUpdate]).files (versionedBinaryPath "v5.1.0".toList) =
      some (.file [1, 2, 3] true) := by
  have hcut := List.forall_mem_singleton.mpr samplesNamed.cut
  have hother : "v5.1.0".toList ≠ "cargo".toList := by decide +kernel
  have hnormal : normalizeVersion "v5.1.0".toList = "v5.1.0".toList := by decide +kernel
  have hbefore : (emptyDisk.after [cutUse]).files (versionedBinaryPath "v5.1.0".toList) =
      some (.file [1] false) := by decide +kernel
  have hprovided := UsedCli.provided
    (reported_reached [cutUse] hcut emptyDisk_sound samplesNamed.next (by decide +kernel)) hother
  rw [hnormal] at hprovided
  exact ⟨hprovided.1, hprovided.2.of_some hbefore, by decide +kernel⟩

end Runs

end Antegen.Cli
