import Antegen.ToolCommands

/-!
# Commands of the node

What each command of the node does, in the same terms: the versions that it may write wherever it
fails, and what is there where it reports success.
-/
namespace Antegen.Cli

open Interrupted

/-- The link of the node leads to the version, which is there. -/
structure Disk.NodeActive (version : Text) (s : Disk) : Prop where
  ready : s.Ready (versionedNodeBinaryPath version)
  linked : s.files nodeBinaryPath = some (.link (versionedNodeBinaryPath version))

/-- A version is supplied. A node that lies beside a command that was built itself is copied for
every version; where a link lies there, only that the version is there is known. -/
def NodeSupplied (m : Machine) (version : Text) (beside e e' : Option Entry) : Prop :=
  e' ≠ none ∧
    match beside with
    | none => Supplied m (m.buildNodeDownloadUrl version) e e'
    | some (.file bytes _) => e' = some (.file bytes true)
    | some (.link _) => True

def NodeProvided (m : Machine) (version : Text) (s s' : Disk) : Prop :=
  NodeSupplied m version (s.beside m) (s.files (versionedNodeBinaryPath version))
    (s'.files (versionedNodeBinaryPath version))

/-- A version of the node is written where none is, or where a node lies beside the command. -/
def NodeWrites (m : Machine) (version : Text) (s : Disk) (t : Path) : Prop :=
  t = versionedNodeBinaryPath version ∧ (s.beside m ≠ none ∨ s.files t = none) ∨
    t = tempPath "antegen-node-update".toList ∧
      s.files (versionedNodeBinaryPath version) = none

section Texts

variable {s : Disk} {version : Text}

theorem mem_of_mem_trim {c : Char} {text : Text} (h : c ∈ trim text) : c ∈ text := by
  have hback := (List.dropWhile_sublist _).mem (List.mem_reverse.mp h)
  exact (List.dropWhile_sublist _).mem (List.mem_reverse.mp hback)

theorem readNodeVersion_slash (hs : s.Sound) (h : readNodeVersion s = some version) :
    '/' ∉ version := by
  obtain ⟨hmap, -⟩ := Option.filter_eq_some_iff.mp h
  obtain ⟨text, htext, rfl⟩ := Option.map_eq_some_iff.mp hmap
  exact fun hmem => hs.tracked text htext (mem_of_mem_trim hmem)

theorem readNodeVersion_of_tracked {text : Text} (ht : s.nodeVersion = some text)
    (h : readNodeVersion s = some version) : version = trim text := by
  obtain ⟨hmap, -⟩ := Option.filter_eq_some_iff.mp h
  rw [ht] at hmap
  exact (Option.some.inj hmap).symm

/-- What a binary prints contains no slash. -/
theorem runVersion_slash {m : Machine} (hm : m.Named) {p : Path} {words : List Text}
    (h : m.runVersion s p = some words) {word : Text} (hword : word ∈ words) : '/' ∉ word := by
  obtain ⟨⟨bytes, executable⟩, -, hrun⟩ := Option.bind_eq_some_iff.mp h
  dsimp only at hrun
  split_ifs at hrun
  exact hm.words bytes words hrun word hword

end Texts

section Node

variable {W : Path → Prop} {E : Option Entry → Prop} {sides : List Side}
  {m : Machine} {version : Text} {s : Disk} {dev : Path} {beside e e' : Option Entry}

theorem target_node (hv : IsVersion version) :
    Side.node.Target (versionedNodeBinaryPath version) := Or.inr ⟨version, hv, rfl⟩

theorem slot_node (hv : IsVersion version) : Slot (versionedNodeBinaryPath version) :=
  .versioned .node hv

theorem stores_node (hv : IsVersion version) (hW : W (versionedNodeBinaryPath version)) :
    Side.node.Stores W (versionedNodeBinaryPath version) := ⟨hW, Or.inl ⟨version, hv, rfl⟩⟩

theorem depth_node (hv : IsVersion version) :
    (versionedNodeBinaryPath version).count '/' < 3 := by
  have hdepth : (Side.node.versioned version).count '/' = 2 := versioned_depth hv
  rw [Side.versioned] at hdepth
  rw [hdepth]
  exact Nat.lt_succ_self 2

theorem NodeWrites.depth (hv : IsVersion version) {t : Path} (h : NodeWrites m version s t) :
    t.count '/' < 3 := by
  rcases h with ⟨rfl, -⟩ | ⟨rfl, -⟩
  · exact depth_node hv
  · exact namesApart.temp_depth

/-! ## Supplying a version -/

theorem NodeSupplied.trans {e'' : Option Entry} (h : NodeSupplied m version beside e e')
    (h' : NodeSupplied m version beside e' e'') : NodeSupplied m version beside e e'' := by
  obtain ⟨-, hfirst⟩ := h
  obtain ⟨hsome, hlast⟩ := h'
  refine ⟨hsome, ?_⟩
  cases beside with
  | none => exact hfirst.trans hlast
  | some entry => cases entry with
    | file bytes executable => exact hlast
    | link target => trivial

theorem exists_ne_none (h : s.exists? dev = true) : s.files dev ≠ none := by
  intro hnone
  simp [Disk.exists?, Disk.binary, Disk.resolve, Disk.maxLinks, Disk.followLinks, hnone] at h

theorem devNode_eq_some (h : m.devNode s = some dev) :
    m.nodeBeside = some dev ∧ s.beside m = s.files dev ∧ s.files dev ≠ none := by
  obtain ⟨hbeside, hexists⟩ := Option.filter_eq_some_iff.mp h
  refine ⟨hbeside, ?_, exists_ne_none hexists⟩
  rw [Disk.beside, hbeside, Option.bind_some]

/-- Where no node is found, nothing lies there but, at most, a link that leads to nothing. -/
theorem devNode_eq_none (h : m.devNode s = none) :
    s.beside m = none ∨ ∃ target, s.beside m = some (.link target) := by
  unfold Disk.beside
  cases hbeside : m.nodeBeside with
  | none => exact Or.inl rfl
  | some dev =>
    rw [Machine.devNode, hbeside] at h
    rw [Option.bind_some]
    cases hfile : s.files dev with
    | none => exact Or.inl rfl
    | some entry => cases entry with
      | link target => exact Or.inr ⟨target, rfl⟩
      | file bytes executable =>
        have hexists : s.exists? dev = true := by
          simp [Disk.exists?, Disk.binary, Disk.resolve, Disk.maxLinks, Disk.followLinks, hfile]
        simp [Option.filter, hexists] at h

/-- A node that lies beside the command is no copy of the version onto itself. -/
theorem NodeSupplied.of_copied (hbeside : m.nodeBeside = some dev) (hv : IsVersion version)
    (h : s.CopiedBinary dev (versionedNodeBinaryPath version) e') :
    NodeSupplied m version (s.files dev) e e' := by
  refine ⟨h.ne_none, ?_⟩
  obtain ⟨bytes, executable, hbinary, rfl⟩ := h
  cases hfile : s.files dev with
  | none => simp [Disk.binary, Disk.resolve, Disk.maxLinks, Disk.followLinks, hfile] at hbinary
  | some entry => cases entry with
    | link target => trivial
    | file bytes' executable' =>
      have hresolve : s.resolve dev = some dev := by
        simp [Disk.resolve, Disk.maxLinks, Disk.followLinks, hfile]
      have hother : ¬ s.resolve dev = some (versionedNodeBinaryPath version) := by
        rw [hresolve]
        intro heq
        have hdepth := nodeBeside_depth hbeside
        rw [Option.some.inj heq] at hdepth
        exact absurd (depth_node hv) (Nat.not_lt.mpr hdepth)
      have hbytes : bytes' = bytes := by
        simp [Disk.binary, hresolve, hfile] at hbinary
        exact hbinary.1
      dsimp only
      rw [Disk.copied, if_neg hother, hbytes]

theorem NodeSupplied.of_supplied (hbeside : beside = none ∨ ∃ target, beside = some (.link target))
    (h : Supplied m (m.buildNodeDownloadUrl version) e e') :
    NodeSupplied m version beside e e' := by
  refine ⟨h.ne_none, ?_⟩
  rcases hbeside with rfl | ⟨target, rfl⟩
  · exact h
  · trivial

theorem ensureNodeDownloaded_does (hside : .node ∈ sides) (hv : IsVersion version)
    (hs : s.Sound) :
    Does (Fills (NodeWrites m version s) sides) (· = s) (ensureNodeDownloaded m version)
      fun p s' => p = versionedNodeBinaryPath version ∧
        s'.At (versionedNodeBinaryPath version) (NodeSupplied m version (s.beside m)
          (s.files (versionedNodeBinaryPath version))) := by
  unfold ensureNodeDownloaded
  rw [normalizeVersion_of_isVersion hv]
  refine Does.bind_read fun s' heq => ?_
  subst heq
  cases hdev : m.devNode s' with
  | some dev =>
    obtain ⟨hlies, hbeside, hsome⟩ := devNode_eq_some hdev
    have hwrites : NodeWrites m version s' (versionedNodeBinaryPath version) :=
      Or.inl ⟨rfl, Or.inl (hbeside ▸ hsome)⟩
    have hp := stores_node hv hwrites
    have hcreate : Does (Fills (NodeWrites m version s') sides) s'.Same createDirAll
        fun _ => s'.Same := attempt_does hside (fun _ hs => hs.skip) _
    refine Does.seq (hcreate.weaken (fun _ heq => hs.same heq) fun _ _ h => h) ?_
    refine Does.seq (copy_does hside hp (slot_node hv) dev _) ?_
    refine Does.seq (permitCopied_does hside hp (slot_node hv) dev) ?_
    rw [hbeside]
    exact Does.pure fun _ hcopied => ⟨rfl, hcopied.imp fun _ h => .of_copied hlies hv h⟩
  | none =>
    have hwrites : s'.files (versionedNodeBinaryPath version) = none →
        NodeWrites m version s' (versionedNodeBinaryPath version) ∧
          NodeWrites m version s' (tempPath "antegen-node-update".toList) :=
      fun hnone => ⟨Or.inl ⟨rfl, Or.inr hnone⟩, Or.inr ⟨rfl, hnone⟩⟩
    have hdownload := ensureDownloaded_does (m := m) hside hv hwrites
      (m.buildNodeDownloadUrl version)
    refine Does.seq (hdownload.from_eq ⟨rfl, hs⟩) (Does.pure fun _ hsupplied => ⟨rfl, ?_⟩)
    exact hsupplied.imp fun _ h => .of_supplied (devNode_eq_none hdev) h

/-- What is done with a version once it is there. -/
theorem ensureNodeDownloaded_bind {α : Type} {Q : α → Disk → Prop} {f : Path → Install α}
    (hside : .node ∈ sides) (hv : IsVersion version) (hs : s.Sound)
    (hW : ∀ t, NodeWrites m version s t → W t)
    (hf : Does (Changes W sides) (fun s' => s'.At (versionedNodeBinaryPath version)
        (NodeSupplied m version (s.beside m) (s.files (versionedNodeBinaryPath version))) ∧
          s'.beside m = s.beside m)
      (f (versionedNodeBinaryPath version)) Q) :
    Does (Changes W sides) (· = s) (ensureNodeDownloaded m version >>= f) Q := by
  have hdownload := (does_changes (ensureNodeDownloaded_does (m := m) hside hv hs)).stable
    (I := fun s' => s'.beside m = s.beside m)
    fun _ _ h hbeside => (h.beside fun _ => NodeWrites.depth hv).trans hbeside
  have hwider := hdownload.mono fun _ _ => Changes.mono hW fun _ h => h
  refine (hwider.from_eq ⟨rfl, rfl⟩).bind fun p => Does.of_forall fun s' hs' => ?_
  obtain ⟨⟨rfl, hat⟩, hbeside⟩ := hs'
  exact hf.from_eq ⟨hat, hbeside⟩

/-! ## The link and the name -/

theorem Disk.NodeActive.kept (hv : IsVersion version) {s' : Disk} (h : Fills W sides s s')
    (hs : s.NodeActive version) : s'.NodeActive version := by
  refine ⟨hs.ready.stays (target_node hv) h.changes, ?_⟩
  have hl : nodeBinaryPath ∈ Side.node.links := List.mem_cons_self
  rw [h.links hl, hs.linked]

theorem Disk.NodeActive.ne_none (hs : s.NodeActive version) :
    s.files (versionedNodeBinaryPath version) ≠ none := by
  obtain ⟨bytes, executable, hfile⟩ := hs.ready.holds
  rw [hfile]
  exact Option.some_ne_none _

theorem writeNodeVersion_does (hside : .node ∈ sides) (hv : '/' ∉ version) :
    Does (Fills W sides) (fun _ => True) (writeNodeVersion version)
      fun _ s => s.nodeVersion = some version := by
  refine Does.seq (attempt_does hside (fun _ hs => hs) _) (Does.step fun s _ => ?_)
  have htrack : ∀ text : Text, '/' ∉ text →
      Fills W sides s { s.skip with nodeVersion := some text } :=
    fun text htext => ⟨.node, hside, .track s rfl htext⟩
  unfold writeTracked
  cases s.fault with
  | none => exact Or.inr ⟨(), _, rfl, htrack version hv, rfl⟩
  | fails => exact Or.inl ⟨_, _, rfl, .node, hside, .skip s⟩
  | short n =>
    exact Or.inl ⟨_, _, rfl, htrack _ fun hmem => hv (List.mem_of_mem_take hmem)⟩

/-- The link leads to what is at the version, and the version is named. -/
theorem activateNode_does (hside : .node ∈ sides) (hv : IsVersion version)
    (hE : ∀ e, E e → e ≠ none) :
    Does (Changes W sides) (Disk.At (versionedNodeBinaryPath version) E)
      (activateNode version (versionedNodeBinaryPath version))
      fun _ s => s.nodeVersion = some version ∧ s.NodeActive version ∧
        E (s.files (versionedNodeBinaryPath version)) := by
  have hl : nodeBinaryPath ∈ Side.node.links := List.mem_cons_self
  have hlink : Does (Changes W sides) (Disk.At (versionedNodeBinaryPath version) E)
      (updateSymlink nodeBinaryPath (versionedNodeBinaryPath version))
      fun _ s => s.NodeActive version ∧ E (s.files (versionedNodeBinaryPath version)) :=
    (updateSymlink_does hside hl (target_node hv)
      fun s e => put_link_entry hl (slot_node hv) s e).weaken
      (fun _ hs => ⟨hs.ready (slot_node hv) hE, hs.entry⟩) fun _ _ h => ⟨⟨h.1.1, h.2⟩, h.1.2⟩
  have hwrite := (writeNodeVersion_does (W := nowhere) hside hv.slash).stable
    (I := fun s => s.NodeActive version ∧ E (s.files (versionedNodeBinaryPath version)))
    fun s s' h hs => ⟨hs.1.kept hv h, by
      rw [h.changes.same id (target_node hv).notMem_links]
      exact hs.2⟩
  refine Does.seq hlink (does_changes ?_)
  exact (hwrite.mono fun _ _ => Fills.mono fun _ h => h.elim).weaken (fun _ hs => ⟨trivial, hs⟩)
    fun _ _ h => h

theorem installLocalNode_does (hside : .node ∈ sides) (hv : IsVersion version)
    (hW : W (versionedNodeBinaryPath version)) (source : Path) (error : String) :
    Does (Fills W sides) s.Same (installLocalNode source version error)
      fun _ => Disk.At (versionedNodeBinaryPath version)
        (s.CopiedBinary source (versionedNodeBinaryPath version)) := by
  refine Does.seq (attempt_does hside (fun _ hs => hs.skip) _) ?_
  refine Does.seq (copy_does hside (stores_node hv hW) (slot_node hv) _ _) ?_
  exact permitCopied_does hside (stores_node hv hW) (slot_node hv) source

/-! ## Building -/

/-- What `cargo build` makes, and the version that it prints. -/
def Machine.builtVersion (m : Machine) : Option (List UInt8 × Text) := do
  let built ← m.build
  let words ← m.versionWords built
  let version ← words[1]?
  some (built, normalizeVersion version)

theorem cargoBuildAndInstallNode_does (hside : .node ∈ sides) (hm : m.Named)
    (hbuild : ∀ root, m.workspaceRoot = some root → W (Machine.builtBinary root))
    (hW : ∀ built version, m.builtVersion = some (built, version) →
      W (versionedNodeBinaryPath version)) :
    Does (Fills W sides) Disk.Sound (cargoBuildAndInstallNode m) fun version s =>
      IsVersion version ∧ ∃ built, m.builtVersion = some (built, version) ∧
        s.At (versionedNodeBinaryPath version) (· = some (.file built true)) := by
  refine Does.bind (Q := fun root s => m.workspaceRoot = some root ∧ s.Sound)
    (Does.ofOption fun _ _ h hs => ⟨h, hs⟩) fun root => ?_
  refine Does.bind (Q := fun built s => (m.workspaceRoot = some root ∧ m.build = some built) ∧
      s.Sound) (Does.ofOption fun _ _ h hs => ⟨⟨hs.1, h⟩, hs.2⟩) fun built => ?_
  have hbuilds : Does (Fills W sides)
      (fun s => (m.workspaceRoot = some root ∧ m.build = some built) ∧ s.Sound)
      (cargoBuild root built) fun _ s => m.build = some built ∧
        s.At (Machine.builtBinary root) (· = some (.file built true)) := by
    refine Does.step fun s hs => ?_
    have hfill : Fills W sides s { s with
        files := Function.update s.files (Machine.builtBinary root) (some (.file built true)) } :=
      ⟨.node, hside, .build s built rfl (hbuild root hs.1.1)⟩
    exact Or.inr ⟨(), _, rfl, hfill, hs.1.2, Function.update_self _ _ _,
      hfill.changes.sound hs.2⟩
  refine Does.seq hbuilds (Does.of_forall fun s hs => ?_)
  obtain ⟨hbuilt, hfile, hsound⟩ := hs
  refine Does.bind (Q := fun words s' => m.versionWords built = some words ∧ s' = s)
    (Does.ofOption fun _ _ h hs => ⟨h, hs⟩) fun words => ?_
  refine Does.bind (Q := fun word s' => m.versionWords built = some words ∧
      words[1]? = some word ∧ s' = s)
    (Does.ofOption fun _ _ h hs => ⟨hs.1, h, hs.2⟩) fun word => ?_
  refine Does.of_forall fun s' hs' => ?_
  obtain ⟨hwords, hword, rfl⟩ := hs'
  have hversion := IsVersion.normalize
    (hm.words built words hwords word (List.mem_of_getElem? hword))
  have hreported : m.builtVersion = some (built, normalizeVersion word) := by
    simp [Machine.builtVersion, hbuilt, hwords, hword]
  have hresolve : s'.resolve (Machine.builtBinary root) = some (Machine.builtBinary root) := by
    simp [Disk.resolve, Disk.followLinks, Disk.maxLinks, hfile]
  refine Does.seq ((installLocalNode_does hside hversion (hW built _ hreported) _ _).weaken
    (fun _ heq => hsound.same heq) fun _ _ h => h) ?_
  refine Does.pure fun s'' hcopied => ⟨hversion, built, hreported, hcopied.imp fun e h => ?_⟩
  obtain ⟨bytes, executable, hbinary, rfl⟩ := h
  have hsource : s'.binary (Machine.builtBinary root) = some (built, true) := by
    simp [Disk.binary, hresolve, hfile]
  obtain ⟨rfl, -⟩ := Prod.mk.inj (Option.some.inj (hsource.symm.trans hbinary))
  have hother : ¬ s'.resolve (Machine.builtBinary root) =
      some (versionedNodeBinaryPath (normalizeVersion word)) := by
    rw [hresolve]
    have hne : Machine.builtBinary root ≠ Side.node.versioned (normalizeVersion word) :=
      builtBinary_ne_versioned hversion
    exact fun heq => hne (Option.some.inj heq)
  rw [Disk.copied, if_neg hother]

/-! ## The latest version -/

/-- The latest version is written where a node is looked for and there is none. -/
def LatestWrites (m : Machine) (s : Disk) (t : Path) : Prop :=
  ∃ latest, m.fetchLatestNodeVersion = .ok latest ∧ NodeWrites m latest s t

theorem LatestWrites.depth (hm : m.Named) {t : Path} (h : LatestWrites m s t) :
    t.count '/' < 3 := by
  obtain ⟨latest, hlatest, hwrites⟩ := h
  exact hwrites.depth (latestNodeVersion_isVersion hm hlatest)

theorem downloadLatestNode_does (hside : .node ∈ sides) (hm : m.Named) (hs : s.Sound) :
    Does (Changes (LatestWrites m s) sides) (· = s) (downloadLatestNode m) fun _ s' =>
      ∃ latest, m.fetchLatestNodeVersion = .ok latest ∧ s'.nodeVersion = some latest ∧
        s'.NodeActive latest ∧ NodeProvided m latest s s' := by
  refine Does.bind (Q := fun latest s' => m.fetchLatestNodeVersion = .ok latest ∧ s' = s)
    (Does.ofExcept fun _ _ h hs' => ⟨h, hs'⟩) fun latest => ?_
  refine (require_does _).bind fun _ => Does.of_forall fun s' hs' => ?_
  obtain ⟨⟨hlatest, rfl⟩, -⟩ := hs'
  have hversion := latestNodeVersion_isVersion hm hlatest
  refine ensureNodeDownloaded_bind hside hversion hs (fun t h => ⟨latest, hlatest, h⟩) ?_
  refine (activateNode_does hside hversion fun _ h => h.1).weaken (fun _ h => h.1)
    fun _ _ h => ⟨latest, hlatest, h⟩

/-! ## The service -/

theorem installServiceNode_does (hside : .node ∈ sides) (hv : IsVersion version)
    (hs : s.Sound) :
    Does (Fills (NodeWrites m version s) sides) (· = s) (installServiceNode m version)
      fun _ => Disk.At (versionedNodeBinaryPath version) (NodeSupplied m version (s.beside m)
        (s.files (versionedNodeBinaryPath version))) := by
  refine (ensureNodeDownloaded_does hside hv hs).bind fun binary =>
    Does.bind_read fun s₁ hs₁ => ?_
  obtain ⟨-, hat⟩ := hs₁
  refine Does.seq ((attempt_does hside (fun _ hs => hs.skip) _).from_eq hat) ?_
  refine Does.bind (Q := fun _ => Disk.At _ _)
    ((require_does _).weaken (fun _ hs => hs) fun _ _ h => h.1) fun _ => ?_
  split
  · rename_i tracked htracked
    have hslash := stripPrefix_slash htracked (slash_notMem_fileName _)
    have hwrite : Does (Fills nowhere sides)
        (Disk.At (versionedNodeBinaryPath version) (NodeSupplied m version (s.beside m)
          (s.files (versionedNodeBinaryPath version)))) (writeNodeVersion tracked)
        fun _ s => s.nodeVersion = some tracked :=
      (writeNodeVersion_does hside hslash).weaken (fun _ _ => trivial) fun _ _ h => h
    have hignored := hwrite.ignore
      (fun _ _ h hs => hs.kept (target_node hv) id h.changes) fun _ hs => hs
    exact hignored.mono fun _ _ => Fills.mono fun _ h => h.elim
  · exact Does.pure fun _ hs => hs

/-- The given version is normalized once it is looked for. -/
theorem installServiceNode_normalize :
    installServiceNode m (normalizeVersion version) = installServiceNode m version := by
  have hidem : normalizeVersion (normalizeVersion version) = normalizeVersion version :=
    if_pos (normalizeVersion_head version)
  unfold installServiceNode ensureNodeDownloaded
  rw [hidem]

/-- Of the service the start only needs its node. -/
theorem start_of_install {R : Disk → Disk → Prop} {P Q : Disk → Prop} {given : Option Text}
    (h : Does R P (installService m given) fun _ => Q) :
    Does R P (start m given) fun _ => Q := by
  refine Does.bind (Q := fun _ => P)
    ((require_does _).weaken (fun _ hs => hs) fun _ _ h => h.1) fun _ => ?_
  exact Does.seq h ((require_does _).weaken (fun _ hs => hs) fun _ _ h => h.1)

/-- The version that the service is started with. -/
def StartVersion (m : Machine) (s : Disk) : Option Text → Text → Prop
  | some given, version => version = normalizeVersion given
  | none, version =>
    match readNodeVersion s with
    | some tracked => version = normalizeVersion tracked
    | none => ∃ latest, m.fetchLatestNodeVersion = .ok latest ∧
        version = normalizeVersion (trim latest)

def Started (m : Machine) (given : Option Text) (s s' : Disk) : Prop :=
  ∃ version, StartVersion m s given version ∧ NodeProvided m version s s'

def StartWrites (m : Machine) (given : Option Text) (s : Disk) (t : Path) : Prop :=
  (∃ version, StartVersion m s given version ∧ NodeWrites m version s t) ∨
    given = none ∧ readNodeVersion s = none ∧ LatestWrites m s t

/-- Until the version is supplied it is kept, or was supplied already. -/
def NodeKept (m : Machine) (version : Text) (s s' : Disk) : Prop :=
  s'.beside m = s.beside m ∧
  (s.files (versionedNodeBinaryPath version) ≠ none →
    s'.files (versionedNodeBinaryPath version) ≠ none) ∧
  (s'.files (versionedNodeBinaryPath version) = s.files (versionedNodeBinaryPath version) ∨
    NodeProvided m version s s')

theorem NodeKept.provided {s₁ s' : Disk} (h : NodeKept m version s s₁)
    (h' : NodeProvided m version s₁ s') : NodeProvided m version s s' := by
  obtain ⟨hbeside, -, hsame | hprovided⟩ := h
  · unfold NodeProvided at h' ⊢
    rwa [hbeside, hsame] at h'
  · refine hprovided.trans ?_
    unfold NodeProvided at h'
    rwa [hbeside] at h'

theorem NodeKept.writes {s₁ : Disk} {t : Path} (h : NodeKept m version s s₁)
    (h' : NodeWrites m version s₁ t) : NodeWrites m version s t := by
  obtain ⟨hbeside, hsome, -⟩ := h
  have hnone : s₁.files (versionedNodeBinaryPath version) = none →
      s.files (versionedNodeBinaryPath version) = none := by
    intro hnone
    by_contra hne
    exact hsome hne hnone
  rcases h' with ⟨rfl, hlies | habsent⟩ | ⟨rfl, habsent⟩
  · exact Or.inl ⟨rfl, Or.inl (hbeside ▸ hlies)⟩
  · exact Or.inl ⟨rfl, Or.inr (hnone habsent)⟩
  · exact Or.inr ⟨rfl, hnone habsent⟩

theorem serviceVersion_does (hside : .node ∈ sides) (hm : m.Named) (hs : s.Sound) :
    Does (Changes (StartWrites m none s) sides) (· = s) (serviceVersion m none) fun version s' =>
      '/' ∉ version ∧ StartVersion m s none (normalizeVersion version) ∧ s'.Sound ∧
        NodeKept m (normalizeVersion version) s s' := by
  refine Does.bind_read fun s' heq => ?_
  subst heq
  cases hread : readNodeVersion s' with
  | some version =>
    refine Does.pure fun s'' heq => ?_
    subst heq
    refine ⟨readNodeVersion_slash hs hread, ?_, hs, rfl, id, Or.inl rfl⟩
    simp only [StartVersion, hread]
  | none =>
    -- a version other than the latest is left alone
    have hdownload := (downloadLatestNode_does hside hm hs).stable
      (I := fun s'' => s''.Sound ∧ s''.beside m = s'.beside m ∧
        ∀ t, Side.node.Target t → (s'.Holds t → s''.Holds t) ∧
          (¬ LatestWrites m s' t → s''.files t = s'.files t))
      fun s₁ s₂ h hI => ⟨h.sound hI.1, (h.beside fun _ => LatestWrites.depth hm).trans hI.2.1,
        fun t ht => ⟨fun hholds => ht.stays h ((hI.2.2 t ht).1 hholds),
          fun hW => (h.same hW ht.notMem_links).trans ((hI.2.2 t ht).2 hW)⟩⟩
    have hwider := (hdownload.mono fun _ _ => Changes.mono
      (fun t h => (Or.inr ⟨rfl, hread, h⟩ : StartWrites m none s' t)) fun _ h => h).mapError
      (f := noNodeBinary)
    refine Does.seq (hwider.from_eq ⟨rfl, hs, rfl, fun t _ => ⟨id, fun _ => rfl⟩⟩) ?_
    refine Does.bind_read fun s₁ hs₁ => Does.ofOption fun version s₂ htracked heq => ?_
    subst heq
    obtain ⟨⟨latest, hlatest, hnamed, -, hprovided⟩, hsound, hbeside, hothers⟩ := hs₁
    obtain rfl := readNodeVersion_of_tracked hnamed htracked
    have hslash := readNodeVersion_slash hsound htracked
    have ht := target_node (.normalize hslash)
    refine ⟨hslash, ?_, hsound, hbeside, fun hsome => ?_, ?_⟩
    · simp only [StartVersion, hread]
      exact ⟨latest, hlatest, rfl⟩
    · have hready : s'.Ready _ := Disk.At.ready ht.slot (E := (· ≠ none)) (fun _ h => h) ⟨hsome, hs⟩
      obtain ⟨bytes, executable, hfile⟩ := (hothers _ ht).1 hready.holds
      rw [hfile]
      exact Option.some_ne_none _
    · by_cases hsame : normalizeVersion (trim latest) = latest
      · rw [hsame]
        exact Or.inr hprovided
      · refine Or.inl ((hothers _ ht).2 fun hwrites => hsame ?_)
        obtain ⟨latest', hlatest', hversion⟩ := hwrites
        obtain rfl := Except.ok.inj (hlatest.symm.trans hlatest')
        rcases hversion with ⟨hpath, -⟩ | ⟨hpath, -⟩
        · exact List.append_cancel_left hpath
        · exact absurd hpath (ht.ne_tempPath _)

theorem start_does (hside : .node ∈ sides) (hm : m.Named) (hs : s.Sound) {given : Option Text}
    (hv : ∀ v, given = some v → '/' ∉ v) :
    Does (Changes (StartWrites m given s) sides) (· = s) (start m given)
      fun _ => Started m given s := by
  have hinstall : ∀ {s₁ : Disk} {version : Text}, '/' ∉ version → s₁.Sound →
      StartVersion m s given (normalizeVersion version) →
      NodeKept m (normalizeVersion version) s s₁ →
      Does (Changes (StartWrites m given s) sides) (· = s₁) (installServiceNode m version)
        fun _ => Started m given s := by
    intro s₁ version hslash hsound hstart hkept
    have hnode := does_changes (installServiceNode_does (m := m) hside (.normalize hslash) hsound)
    rw [installServiceNode_normalize] at hnode
    have hwider := hnode.mono fun _ _ => Changes.mono
      (fun t h => (Or.inl ⟨_, hstart, hkept.writes h⟩ : StartWrites m given s t)) fun _ h => h
    exact hwider.weaken (fun _ h => h) fun _ _ h => ⟨_, hstart, hkept.provided h.entry⟩
  refine start_of_install ?_
  cases given with
  | some version => exact hinstall (hv version rfl) hs rfl ⟨rfl, id, Or.inl rfl⟩
  | none =>
    refine (serviceVersion_does hside hm hs).bind fun version => Does.of_forall fun s₁ hs₁ => ?_
    obtain ⟨hslash, hstart, hsound, hkept⟩ := hs₁
    exact hinstall hslash hsound hstart hkept

/-- The version is active, and named where no service has named it again. -/
def NodeReached (m : Machine) (version : Text) (s : Disk) : Prop :=
  s.NodeActive version ∧ (m.serviceInstalled = false → s.nodeVersion = some version)

/-- A service that is installed is started again, for which the version is supplied again. -/
def Restarted (m : Machine) (version : Text) (beside e e' : Option Entry) : Prop :=
  if m.serviceInstalled then NodeSupplied m version beside e e' else e' = e

theorem Restarted.supplied {e'' : Option Entry} (h' : Restarted m version beside e' e'')
    (h : NodeSupplied m version beside e e') : NodeSupplied m version beside e e'' := by
  unfold Restarted at h'
  split_ifs at h' with hservice
  · exact h.trans h'
  · rw [h']
    exact h

theorem restartService_does (hside : .node ∈ sides) (hv : IsVersion version)
    (hW : beside ≠ none → W (versionedNodeBinaryPath version)) :
    Does (Changes W sides)
      (fun s => (s.nodeVersion = some version ∧ s.NodeActive version ∧
        E (s.files (versionedNodeBinaryPath version))) ∧ s.beside m = beside)
      (restartService m version)
      fun _ s => NodeReached m version s ∧ s.beside m = beside ∧
        ∃ e, E e ∧ Restarted m version beside e (s.files (versionedNodeBinaryPath version)) := by
  unfold Restarted
  refine Does.ite (fun hservice => Does.of_forall fun s hs => ?_) fun hservice => ?_
  · obtain ⟨⟨-, hactive, hentry⟩, rfl⟩ := hs
    have hwrites : ∀ t, NodeWrites m version s t → W t := by
      rintro t (⟨rfl, hlies | hnone⟩ | ⟨-, hnone⟩)
      · exact hW hlies
      · exact absurd hnone hactive.ne_none
      · exact absurd hnone hactive.ne_none
    have hstart : Does (Fills (NodeWrites m version s) sides) (· = s) (start m (some version))
        fun _ => Disk.At (versionedNodeBinaryPath version) (NodeSupplied m version (s.beside m)
          (s.files (versionedNodeBinaryPath version))) :=
      start_of_install (installServiceNode_does hside hv hactive.ready.sound)
    have hkept := hstart.stable
      (I := fun s' => s'.NodeActive version ∧ s'.beside m = s.beside m)
      fun _ _ h hI => ⟨hI.1.kept hv h,
        (h.changes.beside fun _ => NodeWrites.depth hv).trans hI.2⟩
    have hwider := (does_changes hkept).mono fun _ _ => Changes.mono hwrites fun _ h => h
    refine (hwider.from_eq ⟨rfl, hactive, rfl⟩).weaken (fun _ h => h) fun _ s' h => ?_
    obtain ⟨hat, hactive', hbeside⟩ := h
    refine ⟨⟨hactive', fun hnone => ?_⟩, hbeside, _, hentry, ?_⟩
    · exact absurd hservice (by simp [hnone])
    · rw [if_pos hservice]
      exact hat.entry
  · refine Does.pure fun s hs => ⟨⟨hs.1.2.1, fun _ => hs.1.1⟩, hs.2, _, hs.1.2.2, ?_⟩
    rw [if_neg hservice]

/-- What is at the version is linked, and the service takes it from there. -/
theorem activate_restart_does (hside : .node ∈ sides) (hv : IsVersion version)
    (hW : beside ≠ none → W (versionedNodeBinaryPath version)) (hE : ∀ e, E e → e ≠ none) :
    Does (Changes W sides)
      (fun s => s.At (versionedNodeBinaryPath version) E ∧ s.beside m = beside) (do
        activateNode version (versionedNodeBinaryPath version)
        restartService m version)
      fun _ s => NodeReached m version s ∧ s.beside m = beside ∧
        ∃ e, E e ∧ Restarted m version beside e (s.files (versionedNodeBinaryPath version)) := by
  have hactivate := (activateNode_does (W := nowhere) hside hv hE).stable
    (I := fun s => s.beside m = beside)
    fun _ _ h hbeside => (h.beside fun _ hwritten => hwritten.elim).trans hbeside
  refine Does.seq (hactivate.mono fun _ _ => ?_) (restartService_does hside hv hW)
  exact Changes.mono (fun _ h => h.elim) fun _ h => h

theorem provide_does (hside : .node ∈ sides) (hv : IsVersion version) (hs : s.Sound)
    (hW : ∀ t, NodeWrites m version s t → W t) :
    Does (Changes W sides) (· = s) (do
      let versionedPath ← ensureNodeDownloaded m version
      activateNode version versionedPath
      restartService m version)
      fun _ s' => NodeReached m version s' ∧ NodeProvided m version s s' := by
  refine ensureNodeDownloaded_bind hside hv hs hW ?_
  refine (activate_restart_does hside hv (fun hlies => hW _ (Or.inl ⟨rfl, Or.inl hlies⟩))
    fun _ h => h.1).weaken (fun _ h => h) fun _ s' h => ?_
  obtain ⟨hreached, -, e, hsupplied, hrestarted⟩ := h
  exact ⟨hreached, hrestarted.supplied hsupplied⟩

end Node

/-! ## Commands -/

section NodeCommands

variable {sides : List Side} {m : Machine} {given : Option Text} {s : Disk}

/-- No version was given, and the node that is there is not older than the latest. -/
def NodeUpToDate (given : Option Text) (s : Disk) (chosen : Text) : Prop :=
  given = none ∧
    ((getInstalledNodeVersion s).or (readNodeVersion s)).getD "none".toList ≠ "none".toList ∧
    ¬ versionLessThan (((getInstalledNodeVersion s).or (readNodeVersion s)).getD "none".toList)
      chosen

def NodeUpdated (m : Machine) (given : Option Text) (s s' : Disk) : Prop :=
  ∃ chosen, Chosen m.fetchNodeUpdate given chosen ∧ isNodeVersionSupported chosen = true ∧
    (NodeUpToDate given s chosen ∧ s'.files = s.files ∨
      ¬ NodeUpToDate given s chosen ∧ NodeReached m chosen s' ∧ NodeProvided m chosen s s')

def NodeUpdateWrites (m : Machine) (given : Option Text) (s : Disk) (t : Path) : Prop :=
  ∃ chosen, Chosen m.fetchNodeUpdate given chosen ∧ ¬ NodeUpToDate given s chosen ∧
    NodeWrites m chosen s t

theorem updateNode_does (hm : m.Named) (hs : s.Sound) (hv : ∀ v, given = some v → '/' ∉ v) :
    Does (Changes (NodeUpdateWrites m given s) [.node]) (· = s) (updateNode m given false)
      fun _ => NodeUpdated m given s := by
  have hside : Side.node ∈ [Side.node] := List.mem_cons_self
  refine Does.bind_read fun s' heq => ?_
  subst heq
  refine (requestedVersion_does m.fetchNodeUpdate given).bind fun chosen => ?_
  refine (require_does _).bind fun _ => Does.of_forall fun s₁ hs₁ => ?_
  obtain ⟨⟨rfl, hchosen⟩, hsupported⟩ := hs₁
  have hversion := hchosen.isVersion (fun _ h => nodeUpdate_isVersion hm h) hv
  refine Does.ite (fun hnewest => Does.pure fun s₂ heq => ?_) fun holder => ?_
  · subst heq
    exact ⟨chosen, hchosen, hsupported, Or.inl ⟨hnewest, rfl⟩⟩
  · refine (provide_does hside hversion hs fun t h => ⟨chosen, hchosen, holder, h⟩).weaken
      (fun _ h => h) fun _ _ h => ⟨chosen, hchosen, hsupported, Or.inr ⟨holder, h.1, h.2⟩⟩

/-- What was built is active under the version that it prints, as the service has left it. -/
def NodeBuilt (m : Machine) (s : Disk) : Prop :=
  ∃ built version, m.builtVersion = some (built, version) ∧ NodeReached m version s ∧
    Restarted m version (s.beside m) (some (.file built true))
      (s.files (versionedNodeBinaryPath version))

/-- The file that is built, and its version. -/
def BuildWrites (m : Machine) (t : Path) : Prop :=
  (∃ root, m.workspaceRoot = some root ∧ t = Machine.builtBinary root) ∨
    ∃ built version, m.builtVersion = some (built, version) ∧ t = versionedNodeBinaryPath version

theorem buildNode_does (hm : m.Named) :
    Does (Changes (BuildWrites m) [.node]) Disk.Sound (cargoBuildAndInstallNode m)
      fun version s => IsVersion version ∧ ∃ built, m.builtVersion = some (built, version) ∧
        s.At (versionedNodeBinaryPath version) (· = some (.file built true)) :=
  does_changes (cargoBuildAndInstallNode_does List.mem_cons_self hm
    (fun root h => Or.inl ⟨root, h, rfl⟩) fun built version h => Or.inr ⟨built, version, h, rfl⟩)

theorem updateLocalNode_does (hm : m.Named) (given : Option Text) :
    Does (Changes (BuildWrites m) [.node]) Disk.Sound (updateNode m given true)
      fun _ => NodeBuilt m := by
  refine (buildNode_does hm).bind fun version => Does.of_forall fun s hs => ?_
  obtain ⟨hversion, built, hbuilt, hat⟩ := hs
  have hsome : ∀ e, e = some (Entry.file built true) → e ≠ none := by
    rintro e rfl
    exact Option.some_ne_none _
  have hside : Side.node ∈ [Side.node] := List.mem_cons_self
  have hwrites : BuildWrites m (versionedNodeBinaryPath version) :=
    Or.inr ⟨built, version, hbuilt, rfl⟩
  refine ((activate_restart_does hside hversion (fun _ => hwrites) hsome).from_eq
    ⟨hat, rfl⟩).weaken (fun _ hs => hs) fun _ s' h => ?_
  obtain ⟨hreached, hbeside, -, rfl, hrestarted⟩ := h
  exact ⟨built, version, hbuilt, hreached, hbeside ▸ hrestarted⟩

/-- What was built is there under the version that it prints. -/
def BuildInstalled (m : Machine) (s : Disk) : Prop :=
  ∃ built version, m.builtVersion = some (built, version) ∧
    s.files (versionedNodeBinaryPath version) = some (.file built true)

theorem installLocalVersion_does (hm : m.Named) (given : Option Text) :
    Does (Changes (BuildWrites m) [.node]) Disk.Sound (installNodeVersion m given true)
      fun _ => BuildInstalled m := by
  refine (buildNode_does hm).bind fun version => Does.pure fun s hs => ?_
  obtain ⟨-, built, hbuilt, hat⟩ := hs
  exact ⟨built, version, hbuilt, hat.entry⟩

/-- The given version is there, and was kept if it was there before. -/
def NodeInstalled (m : Machine) (given : Option Text) (s s' : Disk) : Prop :=
  ∃ version, given = some version ∧
    isNodeVersionSupported (normalizeVersion version) = true ∧
    Supplied m (m.buildNodeDownloadUrl (normalizeVersion version))
      (s.files (versionedNodeBinaryPath (normalizeVersion version)))
      (s'.files (versionedNodeBinaryPath (normalizeVersion version)))

def NodeInstallWrites (given : Option Text) (s : Disk) (t : Path) : Prop :=
  ∃ version, given = some version ∧
    s.files (versionedNodeBinaryPath (normalizeVersion version)) = none ∧
    (t = tempPath "antegen-node-update".toList ∨
      t = versionedNodeBinaryPath (normalizeVersion version))

theorem installNodeVersion_does (hs : s.Sound) (hv : ∀ v, given = some v → '/' ∉ v) :
    Does (Changes (NodeInstallWrites given s) [.node]) (· = s) (installNodeVersion m given false)
      fun _ => NodeInstalled m given s := by
  have hside : Side.node ∈ [Side.node] := List.mem_cons_self
  refine Does.bind (Q := fun version s' => given = some version ∧ s' = s)
    (Does.ofOption fun _ _ h hs => ⟨h, hs⟩) fun version => ?_
  refine (require_does _).bind fun _ => Does.of_forall fun s' hs' => ?_
  obtain ⟨⟨rfl, rfl⟩, hsupported⟩ := hs'
  have hversion := IsVersion.normalize (hv version rfl)
  have hdownload : Does (Fills (NodeInstallWrites (some version) s') [.node])
      (Disk.At (Side.node.versioned (normalizeVersion version))
        (· = s'.files (Side.node.versioned (normalizeVersion version)))) _
      fun _ => Disk.At _ (Supplied m _ _) :=
    ensureDownloaded_does hside hversion
      (fun hnone => ⟨⟨version, rfl, hnone, Or.inr rfl⟩, version, rfl, hnone, Or.inl rfl⟩)
      (m.buildNodeDownloadUrl (normalizeVersion version))
  exact ((does_changes hdownload).from_eq ⟨rfl, hs⟩).weaken (fun _ hs => hs)
    fun _ _ h => ⟨version, rfl, hsupported, h.entry⟩

/-- What was found in the workspace is active under the version that it prints, as the service has
left it. -/
def UsedLocal (m : Machine) (s s' : Disk) : Prop :=
  ∃ source version, detectLocalNodeBuild m s = some (source, version) ∧
    NodeReached m version s' ∧
    ∃ e, s.CopiedBinary source (versionedNodeBinaryPath version) e ∧
      Restarted m version (s.beside m) e (s'.files (versionedNodeBinaryPath version))

def UseLocalWrites (m : Machine) (s : Disk) (t : Path) : Prop :=
  ∃ source version, detectLocalNodeBuild m s = some (source, version) ∧
    t = versionedNodeBinaryPath version

theorem detected_isVersion (hm : m.Named) {source : Path} {version : Text}
    (h : detectLocalNodeBuild m s = some (source, version)) : IsVersion version := by
  obtain ⟨root, -, hroot⟩ := Option.bind_eq_some_iff.mp h
  obtain ⟨words, hwords, hword⟩ := Option.bind_eq_some_iff.mp hroot
  obtain ⟨word, hget, hsome⟩ := Option.bind_eq_some_iff.mp hword
  obtain ⟨-, rfl⟩ := Prod.mk.inj (Option.some.inj hsome)
  exact .normalize (runVersion_slash hm hwords (List.mem_of_getElem? hget))

theorem useLocalNode_does (hm : m.Named) (hs : s.Sound) :
    Does (Changes (UseLocalWrites m s) [.node]) (· = s) (useNodeVersion m "local".toList)
      fun _ => UsedLocal m s := by
  have hside : Side.node ∈ [Side.node] := List.mem_cons_self
  unfold useNodeVersion
  rw [if_pos rfl]
  refine Does.bind_read fun s' heq => ?_
  subst heq
  refine Does.bind (Q := fun found s₁ => detectLocalNodeBuild m s' = some found ∧ s₁ = s')
    (Does.ofOption fun _ _ h hs => ⟨h, hs⟩) fun found => ?_
  refine Does.of_forall fun s₁ hs₁ => ?_
  obtain ⟨hfound, rfl⟩ := hs₁
  have hversion := detected_isVersion hm hfound
  have hwrites : UseLocalWrites m s₁ (versionedNodeBinaryPath found.2) :=
    ⟨found.1, found.2, hfound, rfl⟩
  have hdepth : ∀ t, UseLocalWrites m s₁ t → t.count '/' < 3 := by
    rintro t ⟨source, version, hdetected, rfl⟩
    exact depth_node (detected_isVersion hm hdetected)
  have hinstall := (does_changes (installLocalNode_does (s := s₁) hside hversion hwrites found.1
    "Failed to copy local build to install directory")).stable
    (I := fun s' => s'.beside m = s₁.beside m) fun _ _ h hbeside => (h.beside hdepth).trans hbeside
  refine Does.seq (hinstall.weaken (fun _ heq => ⟨hs.same heq, heq ▸ rfl⟩) fun _ _ h => h) ?_
  refine (activate_restart_does hside hversion (fun _ => hwrites)
    fun _ => Disk.CopiedBinary.ne_none).weaken (fun _ hs => hs) fun _ _ h => ?_
  exact ⟨found.1, found.2, hfound, h.1, h.2.2⟩

def UsedNode (m : Machine) (version : Text) (s s' : Disk) : Prop :=
  if version = "local".toList then UsedLocal m s s'
  else isNodeVersionSupported (normalizeVersion version) = true ∧
    NodeReached m (normalizeVersion version) s' ∧ NodeProvided m (normalizeVersion version) s s'

def UseNodeWrites (m : Machine) (version : Text) (s : Disk) (t : Path) : Prop :=
  if version = "local".toList then UseLocalWrites m s t
  else NodeWrites m (normalizeVersion version) s t

theorem useNodeVersion_does {version : Text} (hm : m.Named) (hs : s.Sound) (hv : '/' ∉ version) :
    Does (Changes (UseNodeWrites m version s) [.node]) (· = s) (useNodeVersion m version)
      fun _ => UsedNode m version s := by
  unfold UseNodeWrites UsedNode
  by_cases hlocal : version = "local".toList
  · subst hlocal
    simp only [if_true]
    exact useLocalNode_does hm hs
  · simp only [if_neg hlocal]
    unfold useNodeVersion
    rw [if_neg hlocal]
    refine (require_does _).bind fun _ => Does.of_forall fun s' hs' => ?_
    obtain ⟨rfl, hsupported⟩ := hs'
    exact (provide_does List.mem_cons_self (.normalize hv) hs fun t h => h).weaken (fun _ h => h)
      fun _ _ h => ⟨hsupported, h⟩

/-! ## Importing the node -/

/-- The node that lies beside the running command. -/
def importedNode (m : Machine) (s : Disk) : Option Path :=
  m.currentExe.bind fun exe => (importCandidates exe).find? s.exists?

def importedVersion (m : Machine) (s : Disk) : Option (Path × Text) := do
  let node ← importedNode m s
  let words ← m.runVersion s node
  let version ← words.getLast?
  some (node, normalizeVersion version)

/-- The node beside the command, if there is one, is active under the version that it prints. -/
def ImportedNode (m : Machine) (s s' : Disk) : Prop :=
  importedNode m s = none ∧ s'.files = s.files ∨
    ∃ node version, importedVersion m s = some (node, version) ∧ s'.NodeActive version ∧
      s'.nodeVersion = some version ∧
      s.CopiedBinary node (versionedNodeBinaryPath version)
        (s'.files (versionedNodeBinaryPath version))

def ImportNodeWrites (m : Machine) (s : Disk) (t : Path) : Prop :=
  ∃ node version, importedVersion m s = some (node, version) ∧
    t = versionedNodeBinaryPath version

theorem importNodeBinary_does (hside : .node ∈ sides) (hm : m.Named) (hs : s.Sound) :
    Does (Changes (ImportNodeWrites m s) sides) (· = s) (importNodeBinary m)
      fun _ => ImportedNode m s := by
  refine Does.bind (Q := fun exe s' => m.currentExe = some exe ∧ s' = s)
    (Does.ofOption fun _ _ h hs => ⟨h, hs⟩) fun exe => ?_
  refine Does.bind_read fun s' hs' => ?_
  obtain ⟨hexe, rfl⟩ := hs'
  have himported : importedNode m s' = (importCandidates exe).find? s'.exists? := by
    rw [importedNode, hexe, Option.bind_some]
  cases hfind : (importCandidates exe).find? s'.exists? with
  | none =>
    refine Does.pure fun s₁ heq => ?_
    subst heq
    exact Or.inl ⟨himported.trans hfind, rfl⟩
  | some node =>
    refine Does.bind (Q := fun words s₁ => m.runVersion s' node = some words ∧ s₁ = s')
      (Does.ofOption fun _ _ h hs => ⟨h, hs⟩) fun words => ?_
    refine Does.bind (Q := fun word s₁ => m.runVersion s' node = some words ∧
        words.getLast? = some word ∧ s₁ = s')
      (Does.ofOption fun _ _ h hs => ⟨hs.1, h, hs.2⟩) fun word => ?_
    refine Does.of_forall fun s₁ hs₁ => ?_
    obtain ⟨hwords, hword, rfl⟩ := hs₁
    have hversion := IsVersion.normalize
      (runVersion_slash hm hwords (List.mem_of_getLast? hword))
    have hreported : importedVersion m s₁ = some (node, normalizeVersion word) := by
      simp [importedVersion, himported, hfind, hwords, hword]
    have hinstall := does_changes (installLocalNode_does (s := s₁) (W := ImportNodeWrites m s₁)
      hside hversion ⟨node, _, hreported, rfl⟩ node "Failed to copy node binary")
    refine Does.seq (hinstall.weaken (fun _ heq => hs.same heq) fun _ _ h => h) ?_
    refine (activateNode_does hside hversion fun _ => Disk.CopiedBinary.ne_none).weaken
      (fun _ hs => hs) fun _ _ h => Or.inr ⟨node, _, hreported, h.2.1, h.1, h.2.2⟩

/-! ## Running the node -/

/-- A binary of the node is started, which was there or was downloaded. -/
def Ran (m : Machine) (s s' : Disk) : Prop :=
  (∃ path bytes, findNodeBinary m s' = some path ∧ s'.binary path = some (bytes, true)) ∧
    (findNodeBinary m s ≠ none ∧ s'.files = s.files ∨
      findNodeBinary m s = none ∧ ∃ latest, m.fetchLatestNodeVersion = .ok latest ∧
        s'.NodeActive latest ∧ NodeProvided m latest s s')

def RunWrites (m : Machine) (s : Disk) (t : Path) : Prop :=
  findNodeBinary m s = none ∧ LatestWrites m s t

theorem exec_does {W : Path → Prop} {I : Disk → Prop} {path : Path} (hside : .node ∈ sides)
    (hI : ∀ s, I s → I s.skip) :
    Does (Fills W sides) I (exec path)
      fun _ s => I s ∧ ∃ bytes, s.binary path = some (bytes, true) := by
  refine Does.step fun s hs => ?_
  have hskip : Fills W sides s s.skip := ⟨.node, hside, .skip s⟩
  unfold exec
  split
  · rename_i bytes hfault hbinary
    exact Or.inr ⟨(), _, rfl, hskip, hI s hs, bytes, hbinary⟩
  · exact Or.inl ⟨_, _, rfl, hskip⟩

theorem run_does (hside : .node ∈ sides) (hm : m.Named) (hs : s.Sound) :
    Does (Changes (RunWrites m s) sides) (· = s) (run m) fun _ => Ran m s := by
  have hobtain : Does (Changes (RunWrites m s) sides) (· = s) (obtainNodeBinary m) fun path s' =>
      findNodeBinary m s' = some path ∧ (findNodeBinary m s ≠ none ∧ s'.files = s.files ∨
        findNodeBinary m s = none ∧ ∃ latest, m.fetchLatestNodeVersion = .ok latest ∧
          s'.NodeActive latest ∧ NodeProvided m latest s s') := by
    refine Does.bind_read fun s' heq => ?_
    subst heq
    cases hfind : findNodeBinary m s' with
    | some path =>
      refine Does.pure fun s₁ heq => ?_
      subst heq
      exact ⟨hfind, Or.inl ⟨Option.some_ne_none _, rfl⟩⟩
    | none =>
      have hdownload := (downloadLatestNode_does hside hm hs).mono fun _ _ => Changes.mono
        (fun t h => (⟨hfind, h⟩ : RunWrites m s' t)) fun _ h => h
      refine Does.seq hdownload.mapError (Does.bind_read fun s₁ hs₁ => ?_)
      obtain ⟨latest, hlatest, -, hactive, hprovided⟩ := hs₁
      refine Does.ofOption fun path s₂ h heq => ?_
      subst heq
      exact ⟨h, Or.inr ⟨rfl, latest, hlatest, hactive, hprovided⟩⟩
  refine hobtain.bind fun path => does_changes ((exec_does hside fun s₁ h => ?_).weaken
    (fun _ hs => hs) fun _ s₁ h => ?_)
  · obtain ⟨hfind, hsame | ⟨hnone, latest, hlatest, hactive, hprovided⟩⟩ := h
    · exact ⟨hfind, Or.inl hsame⟩
    · have hskip := hactive.kept (latestNodeVersion_isVersion hm hlatest)
        (⟨.node, hside, .skip s₁⟩ : Fills nowhere sides s₁ s₁.skip)
      exact ⟨hfind, Or.inr ⟨hnone, latest, hlatest, hskip, hprovided⟩⟩
  · obtain ⟨⟨hfind, hcases⟩, bytes, hbinary⟩ := h
    exact ⟨⟨path, bytes, hfind, hbinary⟩, hcases⟩

end NodeCommands

end Antegen.Cli
