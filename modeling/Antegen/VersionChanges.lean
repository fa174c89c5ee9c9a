import Antegen.VersionStore

/-!
# What commands of the version manager do to the disk

A command fills files of one side, the tool or the node, and moves links of that side. Whatever
fails, and wherever a write is cut short, a link leads to a file that is there, and a version that
the command does not write stays as it is.
-/
namespace Antegen.Cli

open Interrupted

/-! ## Names -/

inductive Side
  | tool
  | node
  deriving DecidableEq

namespace Side

def links : Side → List Path
  | tool => [binaryPath, antegenctlSymlinkPath]
  | node => [nodeBinaryPath]

def versioned : Side → Text → Path
  | tool => versionedBinaryPath
  | node => versionedNodeBinaryPath

/-- What the name of a versioned binary starts with. -/
def stem : Side → Text
  | tool => "antegen-".toList
  | node => "antegen-node-".toList

/-- What the path of a versioned binary starts with. -/
def marker : Side → Path
  | tool => ".local/bin/antegen-v".toList
  | node => ".local/bin/antegen-node-v".toList

end Side

/-- The names of the files are split and told apart by their first and last letters. -/
structure NamesApart : Prop where
  versioned : ∀ side : Side, side.versioned [] = ".local/bin".toList ++ '/' :: side.stem
  built : "/target/release/antegen-node".toList =
    "/target/release".toList ++ '/' :: "antegen-node".toList
  stem_slash : ∀ side : Side, '/' ∉ side.stem
  node_slash : '/' ∉ "antegen-node".toList
  marker : ∀ side : Side, side.marker = side.versioned ['v']
  marker_link : ∀ side side' : Side, ∀ l ∈ side'.links, ¬ side.marker <+: l
  marker_marker : ∀ side side' : Side, side ≠ side' →
    ¬ (side.marker <+: side'.marker ∨ side'.marker <+: side.marker)
  link_link : ∀ side side' : Side, side ≠ side' → ∀ l ∈ side.links, l ∉ side'.links
  temp_link : ∀ side : Side, ∀ l ∈ side.links, ¬ "/tmp/".toList <+: l
  temp_marker : ∀ side : Side,
    ¬ ("/tmp/".toList <+: side.marker ∨ side.marker <+: "/tmp/".toList)
  temp_cargo : ¬ ("/tmp/".toList <+: cargoBin ∨ cargoBin <+: "/tmp/".toList)
  cargo_link : ∀ side : Side, cargoBin ∉ side.links
  cargo_marker : ∀ side : Side, ¬ (side.marker <+: cargoBin ∨ cargoBin <+: side.marker)
  cargo_name : fileName cargoBin ≠ "antegen-node".toList
  built_link : ∀ side : Side, ∀ l ∈ side.links, ¬ "/target/release/antegen-node".toList <:+ l
  built_stem : ∀ side : Side, ¬ side.stem ++ ['v'] <+: "antegen-node".toList
  bin_depth : ".local/bin".toList.count '/' = 1
  link_depth : ∀ side : Side, ∀ l ∈ side.links, l.count '/' < 3
  temp_depth : (tempPath "antegen-node-update".toList).count '/' < 3
  debug_depth : 3 ≤ "/target/debug/".toList.count '/'
  release_depth : 3 ≤ "/target/release/".toList.count '/'

theorem namesApart : NamesApart where
  versioned side := by cases side <;> decide +kernel
  built := by decide +kernel
  stem_slash side := by cases side <;> decide +kernel
  node_slash := by decide +kernel
  marker side := by cases side <;> decide +kernel
  marker_link side side' := by cases side <;> cases side' <;> decide +kernel
  marker_marker side side' := by cases side <;> cases side' <;> decide +kernel
  link_link side side' := by cases side <;> cases side' <;> decide +kernel
  temp_link side := by cases side <;> decide +kernel
  temp_marker side := by cases side <;> decide +kernel
  temp_cargo := by decide +kernel
  cargo_link side := by cases side <;> decide +kernel
  cargo_marker side := by cases side <;> decide +kernel
  cargo_name := by decide +kernel
  built_link side := by cases side <;> decide +kernel
  built_stem side := by cases side <;> decide +kernel
  bin_depth := by decide +kernel
  link_depth side := by cases side <;> decide +kernel
  temp_depth := by decide +kernel
  debug_depth := by decide +kernel
  release_depth := by decide +kernel

/-- A normalized version that names a file. -/
structure IsVersion (version : Text) : Prop where
  head : version.head? = some 'v'
  slash : '/' ∉ version

theorem normalizeVersion_head (version : Text) : (normalizeVersion version).head? = some 'v' := by
  unfold normalizeVersion
  split_ifs with hhead
  · exact hhead
  · rfl

theorem IsVersion.normalize {version : Text} (h : '/' ∉ version) :
    IsVersion (normalizeVersion version) := by
  refine ⟨normalizeVersion_head version, ?_⟩
  unfold normalizeVersion
  split_ifs
  · exact h
  · simp [h]

theorem normalizeVersion_of_isVersion {version : Text} (h : IsVersion version) :
    normalizeVersion version = version := if_pos h.head

theorem IsVersion.exists_rest {version : Text} (h : IsVersion version) :
    ∃ rest, version = 'v' :: rest := by
  obtain ⟨hhead, -⟩ := h
  cases version with
  | nil => exact absurd hhead (by simp)
  | cons c rest =>
    obtain rfl := Option.some.inj hhead
    exact ⟨rest, rfl⟩

theorem fileName_append (d : Text) {name : Text} (h : '/' ∉ name) :
    fileName (d ++ '/' :: name) = name := by
  have hall : ∀ c ∈ name.reverse, (decide (c ≠ '/')) = true := by
    intro c hc
    have hmem := List.mem_reverse.mp hc
    exact decide_eq_true fun heq => h (heq ▸ hmem)
  rw [fileName, List.reverse_append, List.reverse_cons, List.append_assoc,
    List.takeWhile_append_of_pos hall]
  simp

theorem versioned_eq (side : Side) (version : Text) :
    side.versioned version = ".local/bin".toList ++ '/' :: (side.stem ++ version) := by
  have happend : side.versioned version = side.versioned [] ++ version := by
    cases side <;> exact congrArg (· ++ version) (List.append_nil _).symm
  rw [happend, namesApart.versioned, List.append_assoc, List.cons_append]

theorem fileName_versioned {side : Side} {version : Text} (h : IsVersion version) :
    fileName (side.versioned version) = side.stem ++ version := by
  rw [versioned_eq]
  refine fileName_append _ fun hmem => ?_
  rcases List.mem_append.mp hmem with hstem | hversion
  · exact namesApart.stem_slash side hstem
  · exact h.slash hversion

theorem stripPrefix_append (pre text : Text) : stripPrefix pre (pre ++ text) = some text := by
  simp [stripPrefix]

theorem stripPrefix_slash {pre text rest : Text} (h : stripPrefix pre text = some rest)
    (htext : '/' ∉ text) : '/' ∉ rest := by
  unfold stripPrefix at h
  split_ifs at h
  obtain rfl := Option.some.inj h
  exact fun hmem => htext (List.mem_of_mem_drop hmem)

/-- The paths that only binaries are put at. -/
inductive Slot : Path → Prop
  | versioned (side : Side) {version : Text} (h : IsVersion version) : Slot (side.versioned version)
  | temp (name : Text) : Slot (tempPath name)
  | cargo : Slot cargoBin

/-- The paths that files are written to. -/
inductive Managed : Path → Prop
  | versioned (side : Side) {version : Text} (h : IsVersion version) :
      Managed (side.versioned version)
  | temp (name : Text) : Managed (tempPath name)
  | built (root : Path) : Managed (Machine.builtBinary root)

section Names

variable {side side' : Side} {version version' name : Text} {root p l : Path}

theorem ne_of_prefixes {a b q : Text} (ha : a <+: p) (hb : b <+: q)
    (h : ¬ (a <+: b ∨ b <+: a)) : p ≠ q := by
  rintro rfl
  exact h (List.prefix_or_prefix_of_prefix ha hb)

theorem marker_begins (h : IsVersion version) : side.marker <+: side.versioned version := by
  obtain ⟨rest, rfl⟩ := h.exists_rest
  rw [namesApart.marker, versioned_eq, versioned_eq]
  exact ⟨rest, by simp⟩

theorem tempPath_begins (name : Text) : "/tmp/".toList <+: tempPath name := List.prefix_append _ _

theorem versioned_notMem_links (h : IsVersion version) : side.versioned version ∉ side'.links :=
  fun hmem => namesApart.marker_link side side' _ hmem (marker_begins h)

theorem versioned_inj (h : IsVersion version) (h' : IsVersion version')
    (heq : side.versioned version = side'.versioned version') : side = side' := by
  by_contra hne
  exact ne_of_prefixes (marker_begins h) (marker_begins h')
    (namesApart.marker_marker side side' hne) heq

theorem slot_notMem_links (h : Slot p) : p ∉ side.links := by
  cases h with
  | versioned side h => exact versioned_notMem_links h
  | temp name => exact fun hmem => namesApart.temp_link side _ hmem (tempPath_begins name)
  | cargo => exact namesApart.cargo_link side

theorem links_disjoint (h : l ∈ side.links) (h' : l ∈ side'.links) : side = side' := by
  by_contra hne
  exact namesApart.link_link side side' hne l h h'

theorem tempPath_ne_versioned (h : IsVersion version) : tempPath name ≠ side.versioned version :=
  ne_of_prefixes (tempPath_begins name) (marker_begins h) (namesApart.temp_marker side)

theorem tempPath_ne_cargoBin : tempPath name ≠ cargoBin :=
  ne_of_prefixes (tempPath_begins name) List.prefix_rfl namesApart.temp_cargo

theorem builtBinary_notMem_links : Machine.builtBinary root ∉ side.links :=
  fun h => namesApart.built_link side _ h (List.suffix_append _ _)

theorem fileName_builtBinary (root : Path) :
    fileName (Machine.builtBinary root) = "antegen-node".toList := by
  rw [Machine.builtBinary, namesApart.built, ← List.append_assoc]
  exact fileName_append _ namesApart.node_slash

/-- A versioned binary is not called as the link of the node is. -/
theorem ne_versioned_of_fileName (h : IsVersion version) (hp : fileName p = "antegen-node".toList) :
    p ≠ side.versioned version := by
  rintro rfl
  rw [fileName_versioned h] at hp
  obtain ⟨rest, rfl⟩ := h.exists_rest
  exact namesApart.built_stem side ⟨rest, by rw [← hp]; simp⟩

theorem builtBinary_ne_versioned (h : IsVersion version) :
    Machine.builtBinary root ≠ side.versioned version :=
  ne_versioned_of_fileName h (fileName_builtBinary root)

/-- A versioned binary lies two directories deep. -/
theorem versioned_depth (h : IsVersion version) : (side.versioned version).count '/' = 2 := by
  have hstem : side.stem.count '/' = 0 := List.count_eq_zero.mpr (namesApart.stem_slash side)
  have hversion : version.count '/' = 0 := List.count_eq_zero.mpr h.slash
  rw [versioned_eq, List.count_append, List.count_cons_self, List.count_append,
    namesApart.bin_depth, hstem, hversion]

theorem takeWhile_slash (text : Text) : '/' ∉ text.takeWhile (· ≠ '/') := by
  intro hmem
  have hall := List.all_eq_true.mp List.all_takeWhile '/' hmem
  simp at hall

theorem slash_notMem_fileName (p : Path) : '/' ∉ fileName p :=
  fun hmem => takeWhile_slash _ (List.mem_reverse.mp hmem)

/-- Another name in the same directory lies as deep. -/
theorem depth_le_withFileName (p : Path) (name : Text) :
    p.count '/' ≤ (withFileName p name).count '/' := by
  have hname : (p.reverse.takeWhile (· ≠ '/')).count '/' = 0 :=
    List.count_eq_zero.mpr (takeWhile_slash _)
  have hsplit : p.reverse.count '/' = (p.reverse.dropWhile (· ≠ '/')).count '/' := by
    conv_lhs => rw [← List.takeWhile_append_dropWhile (p := (· ≠ '/')) (l := p.reverse)]
    rw [List.count_append, hname, Nat.zero_add]
  rw [withFileName, List.count_append, List.count_reverse, ← hsplit, List.count_reverse]
  exact Nat.le_add_right _ _

theorem nodeBeside_depth {m : Machine} (h : m.nodeBeside = some p) : 3 ≤ p.count '/' := by
  unfold Machine.nodeBeside at h
  split_ifs at h
  obtain ⟨exe, hexe, rfl⟩ := Option.map_eq_some_iff.mp h
  obtain ⟨-, htarget⟩ := Option.filter_eq_some_iff.mp hexe
  refine le_trans ?_ (depth_le_withFileName exe _)
  rcases (Bool.or_eq_true _ _).mp htarget with hdebug | hrelease
  · exact namesApart.debug_depth.trans ((of_decide_eq_true hdebug).sublist.count_le '/')
  · exact namesApart.release_depth.trans ((of_decide_eq_true hrelease).sublist.count_le '/')

end Names

/-! ## Changes -/

/-- A file is there, whatever it contains. -/
def Disk.Holds (s : Disk) (p : Path) : Prop :=
  ∃ bytes executable, s.files p = some (.file bytes executable)

/-- What a link of a side may lead to. -/
def Side.Target (side : Side) (t : Path) : Prop :=
  (side = .tool ∧ t = cargoBin) ∨ ∃ version, IsVersion version ∧ t = side.versioned version

theorem Side.Target.slot {side : Side} {t : Path} (h : side.Target t) : Slot t := by
  rcases h with ⟨-, rfl⟩ | ⟨version, hversion, rfl⟩
  · exact .cargo
  · exact .versioned side hversion

/-- No link leads to nothing, and only the links are links. -/
structure Disk.Sound (s : Disk) : Prop where
  plain : ∀ p, Slot p → ∀ t, s.files p ≠ some (.link t)
  linked : ∀ side : Side, ∀ l ∈ side.links, ∀ t, s.files l = some (.link t) →
    side.Target t ∧ s.Holds t
  tracked : ∀ version, s.nodeVersion = some version → '/' ∉ version

/-- Where a side stores binaries, if the paths of `W` may be written. -/
def Side.Stores (side : Side) (W : Path → Prop) (p : Path) : Prop :=
  W p ∧ ((∃ version, IsVersion version ∧ p = side.versioned version) ∨ ∃ name, p = tempPath name)

/-- Changes that leave the links alone. -/
inductive Fill (W : Path → Prop) (side : Side) : Disk → Disk → Prop
  | skip (s : Disk) : Fill W side s s.skip
  | store (s : Disk) {p : Path} (bytes : List UInt8) (executable : Bool) (hp : side.Stores W p) :
      Fill W side s (s.put p (some (.file bytes executable)))
  | drop (s : Disk) {name : Text} (hW : W (tempPath name)) :
      Fill W side s (s.put (tempPath name) none)
  | build (s : Disk) {root : Path} (bytes : List UInt8) (hside : side = .node)
      (hW : W (Machine.builtBinary root)) :
      Fill W side s { s with
        files := Function.update s.files (Machine.builtBinary root) (some (.file bytes true)) }
  | track (s : Disk) {version : Text} (hside : side = .node) (hversion : '/' ∉ version) :
      Fill W side s { s.skip with nodeVersion := some version }

/-- Changes of the links. -/
inductive Relink (W : Path → Prop) (side : Side) : Disk → Disk → Prop
  | link (s : Disk) {l t : Path} (hl : l ∈ side.links) (ht : side.Target t) (hholds : s.Holds t) :
      Relink W side s (s.put l (some (.link t)))
  | unlink (s : Disk) {l : Path} (hl : l ∈ side.links) : Relink W side s (s.put l none)
  | migrate (s : Disk) {version : Text} {bytes : List UInt8} {executable : Bool}
      (hside : side = .tool) (hversion : IsVersion version) (hW : W (versionedBinaryPath version))
      (hfile : s.files binaryPath = some (.file bytes executable)) :
      Relink W side s { s with
        files := Function.update (Function.update s.files (versionedBinaryPath version)
          (some (.file bytes executable))) binaryPath none
        faults := s.faults.tail }

/-- What commands of these sides do that write no other files than those of `W`. -/
def Changes (W : Path → Prop) (sides : List Side) (s s' : Disk) : Prop :=
  ∃ side ∈ sides, Fill W side s s' ∨ Relink W side s s'

/-- Nothing of the side has changed. -/
structure Side.Unchanged (side : Side) (s s' : Disk) : Prop where
  links : ∀ l ∈ side.links, s'.files l = s.files l
  versions : ∀ version, IsVersion version →
    s'.files (side.versioned version) = s.files (side.versioned version)
  tracked : side = .node → s'.nodeVersion = s.nodeVersion

@[simp] theorem Disk.put_files (s : Disk) (p : Path) (e : Option Entry) :
    (s.put p e).files = Function.update s.files p e := rfl

section Steps

variable {W W' : Path → Prop} {side side' : Side} {sides sides' : List Side} {s s' : Disk}
  {p t : Path}

theorem ne_of_mem_links {l : Path} (hp : p ∉ side.links) (hl : l ∈ side.links) : p ≠ l := by
  rintro rfl
  exact hp hl

theorem Side.Stores.notMem_links (h : side.Stores W p) : p ∉ side'.links := by
  rcases h.2 with ⟨version, hversion, rfl⟩ | ⟨name, rfl⟩
  · exact slot_notMem_links (.versioned side hversion)
  · exact slot_notMem_links (.temp name)

theorem Side.Target.ne_tempPath (ht : side.Target t) (name : Text) : t ≠ tempPath name := by
  rcases ht with ⟨-, rfl⟩ | ⟨version, hversion, rfl⟩
  · exact tempPath_ne_cargoBin.symm
  · exact (tempPath_ne_versioned hversion).symm

/-! ### More files may be written -/

theorem Side.Stores.mono (hW : ∀ p, W p → W' p) (h : side.Stores W p) : side.Stores W' p :=
  ⟨hW p h.1, h.2⟩

theorem Fill.mono (hW : ∀ p, W p → W' p) (h : Fill W side s s') : Fill W' side s s' := by
  cases h with
  | skip => exact .skip s
  | store bytes executable hp => exact .store s bytes executable (hp.mono hW)
  | drop hwritten => exact .drop s (hW _ hwritten)
  | build bytes hside hwritten => exact .build s bytes hside (hW _ hwritten)
  | track hside hversion => exact .track s hside hversion

theorem Relink.mono (hW : ∀ p, W p → W' p) (h : Relink W side s s') : Relink W' side s s' := by
  cases h with
  | link hl ht hholds => exact .link s hl ht hholds
  | unlink hl => exact .unlink s hl
  | migrate hside hversion hwritten hfile => exact .migrate s hside hversion (hW _ hwritten) hfile

theorem Changes.mono (hW : ∀ p, W p → W' p) (hsides : ∀ side ∈ sides, side ∈ sides')
    (h : Changes W sides s s') : Changes W' sides' s s' := by
  obtain ⟨side, hmem, hfill | hrelink⟩ := h
  · exact ⟨side, hsides side hmem, Or.inl (hfill.mono hW)⟩
  · exact ⟨side, hsides side hmem, Or.inr (hrelink.mono hW)⟩

/-! ### What may be written at all -/

theorem Side.Stores.managed (h : side.Stores W p) : Managed p := by
  rcases h.2 with ⟨version, hversion, rfl⟩ | ⟨name, rfl⟩
  · exact .versioned side hversion
  · exact .temp name

theorem Fill.managed (h : Fill W side s s') : Fill (fun p => W p ∧ Managed p) side s s' := by
  cases h with
  | skip => exact .skip s
  | store bytes executable hp => exact .store s bytes executable ⟨⟨hp.1, hp.managed⟩, hp.2⟩
  | drop hwritten => exact .drop s ⟨hwritten, .temp _⟩
  | build bytes hside hwritten => exact .build s bytes hside ⟨hwritten, .built _⟩
  | track hside hversion => exact .track s hside hversion

theorem Relink.managed (h : Relink W side s s') :
    Relink (fun p => W p ∧ Managed p) side s s' := by
  cases h with
  | link hl ht hholds => exact .link s hl ht hholds
  | unlink hl => exact .unlink s hl
  | migrate hside hversion hwritten hfile =>
    exact .migrate s hside hversion ⟨hwritten, .versioned .tool hversion⟩ hfile

theorem Changes.managed (h : Changes W sides s s') :
    Changes (fun p => W p ∧ Managed p) sides s s' := by
  obtain ⟨side, hmem, hfill | hrelink⟩ := h
  · exact ⟨side, hmem, Or.inl hfill.managed⟩
  · exact ⟨side, hmem, Or.inr hrelink.managed⟩

/-! ### What is not written stays as it is -/

theorem ne_of_written (hW : ¬ W p) {q : Path} (hq : W q) : p ≠ q := by
  rintro rfl
  exact hW hq

/-- The links stay as they are. -/
theorem Fill.links (h : Fill W side s s') {l : Path} (hl : l ∈ side'.links) :
    s'.files l = s.files l := by
  cases h with
  | skip => rfl
  | store bytes executable hp =>
    exact Function.update_of_ne (ne_of_mem_links hp.notMem_links hl).symm _ _
  | drop =>
    exact Function.update_of_ne (ne_of_mem_links (slot_notMem_links (.temp _)) hl).symm _ _
  | build bytes =>
    exact Function.update_of_ne (ne_of_mem_links builtBinary_notMem_links hl).symm _ _
  | track => rfl

theorem Fill.same (h : Fill W side s s') (hW : ¬ W p) : s'.files p = s.files p := by
  cases h with
  | skip => rfl
  | store bytes executable hp => exact Function.update_of_ne (ne_of_written hW hp.1) _ _
  | drop hwritten => exact Function.update_of_ne (ne_of_written hW hwritten) _ _
  | build bytes hside hwritten => exact Function.update_of_ne (ne_of_written hW hwritten) _ _
  | track => rfl

theorem Relink.same (h : Relink W side s s') (hW : ¬ W p) (hp : ∀ side : Side, p ∉ side.links) :
    s'.files p = s.files p := by
  cases h with
  | link hl => exact Function.update_of_ne (ne_of_mem_links (hp side) hl) _ _
  | unlink hl => exact Function.update_of_ne (ne_of_mem_links (hp side) hl) _ _
  | migrate hside hversion hwritten hfile =>
    have hbinary : binaryPath ∈ Side.tool.links := List.mem_cons_self
    exact (Function.update_of_ne (ne_of_mem_links (hp .tool) hbinary) _ _).trans
      (Function.update_of_ne (ne_of_written hW hwritten) _ _)

/-- A file that is not written keeps its bytes and its permissions. -/
theorem Changes.same (h : Changes W sides s s') (hW : ¬ W p) (hp : ∀ side : Side, p ∉ side.links) :
    s'.files p = s.files p := by
  obtain ⟨side, -, hfill | hrelink⟩ := h
  · exact hfill.same hW
  · exact hrelink.same hW hp

/-- What lies beside a command that was built itself. -/
def Disk.beside (s : Disk) (m : Machine) : Option Entry := m.nodeBeside.bind s.files

/-- The version manager writes near the home directory only. -/
theorem Changes.beside {m : Machine} (h : Changes W sides s s')
    (hW : ∀ p, W p → p.count '/' < 3) : s'.beside m = s.beside m := by
  unfold Disk.beside
  cases hbeside : m.nodeBeside with
  | none => rfl
  | some dev =>
    have hdepth := nodeBeside_depth hbeside
    refine h.same (fun hwritten => ?_) fun side hlink => ?_
    · exact absurd (hW dev hwritten) (Nat.not_lt.mpr hdepth)
    · exact absurd (namesApart.link_depth side dev hlink) (Nat.not_lt.mpr hdepth)

theorem Side.Target.notMem_links (ht : side.Target t) (side' : Side) : t ∉ side'.links :=
  slot_notMem_links ht.slot

/-! ### Files stay -/

theorem Disk.Holds.put_file (h : s.Holds p) (q : Path) (bytes : List UInt8) (executable : Bool) :
    ∃ bytes' executable', Function.update s.files q (some (.file bytes executable)) p =
      some (.file bytes' executable') := by
  by_cases hq : p = q
  · exact ⟨bytes, executable, by rw [hq, Function.update_self]⟩
  · obtain ⟨bytes', executable', hfile⟩ := h
    exact ⟨bytes', executable', by rw [Function.update_of_ne hq, hfile]⟩

theorem Fill.holds (h : Fill W side s s') (hp : ∀ name, p ≠ tempPath name) (hholds : s.Holds p) :
    s'.Holds p := by
  cases h with
  | skip => exact hholds
  | store bytes executable => exact hholds.put_file _ bytes executable
  | drop =>
    obtain ⟨bytes, executable, hfile⟩ := hholds
    exact ⟨bytes, executable, by rw [Disk.put_files, Function.update_of_ne (hp _), hfile]⟩
  | build bytes => exact hholds.put_file _ bytes true
  | track => exact hholds

theorem Relink.holds (h : Relink W side s s') (hp : ∀ side : Side, p ∉ side.links)
    (hholds : s.Holds p) : s'.Holds p := by
  have hput : ∀ {l : Path} {e : Option Entry}, l ∈ side.links → (s.put l e).Holds p := by
    intro l e hl
    obtain ⟨bytes, executable, hfile⟩ := hholds
    have hne : p ≠ l := ne_of_mem_links (hp side) hl
    exact ⟨bytes, executable, by rw [Disk.put_files, Function.update_of_ne hne, hfile]⟩
  cases h with
  | link hl => exact hput hl
  | unlink hl => exact hput hl
  | @migrate version bytes executable =>
    have hne : p ≠ binaryPath := ne_of_mem_links (hp .tool) List.mem_cons_self
    obtain ⟨bytes', executable', hfile'⟩ :=
      hholds.put_file (versionedBinaryPath version) bytes executable
    exact ⟨bytes', executable', (Function.update_of_ne hne _ _).trans hfile'⟩

/-- The file of a version is never removed. -/
theorem Side.Target.stays (h : Changes W sides s s') (ht : side.Target t) (hholds : s.Holds t) :
    s'.Holds t := by
  obtain ⟨side, -, hfill | hrelink⟩ := h
  · exact hfill.holds ht.ne_tempPath hholds
  · exact hrelink.holds (fun side' => slot_notMem_links ht.slot) hholds

/-! ### Links lead to files -/

theorem Fill.plain (h : Fill W side s s') (hplain : ∀ t, s.files p ≠ some (.link t)) :
    ∀ t, s'.files p ≠ some (.link t) := by
  have hput : ∀ {q : Path} {e : Option Entry}, (∀ t, e ≠ some (.link t)) →
      ∀ t, Function.update s.files q e p ≠ some (.link t) := by
    intro q e he t
    by_cases hq : p = q
    · rw [hq, Function.update_self]
      exact he t
    · rw [Function.update_of_ne hq]
      exact hplain t
  cases h with
  | skip => exact hplain
  | store bytes executable => exact hput (by simp)
  | drop => exact hput (by simp)
  | build bytes => exact hput (by simp)
  | track => exact hplain

theorem Fill.sound (h : Fill W side s s') (hs : s.Sound) : s'.Sound := by
  refine ⟨fun p hp => h.plain (hs.plain p hp), fun side' l hl t hlink => ?_, fun version hv => ?_⟩
  · rw [h.links hl] at hlink
    have hchange : Changes W [side] s s' := ⟨side, List.mem_cons_self, Or.inl h⟩
    obtain ⟨ht, hholds⟩ := hs.linked side' l hl t hlink
    exact ⟨ht, ht.stays hchange hholds⟩
  · cases h with
    | track hside hversion =>
      obtain rfl := Option.some.inj hv
      exact hversion
    | skip => exact hs.tracked version hv
    | store => exact hs.tracked version hv
    | drop => exact hs.tracked version hv
    | build => exact hs.tracked version hv

/-- A link may be put at the place of a link, if it leads to a file. -/
theorem Disk.Sound.put_link (hs : s.Sound) {l : Path} {e : Option Entry} (hl : l ∈ side.links)
    (he : ∀ t, e = some (.link t) → side.Target t ∧ s.Holds t)
    (hstays : ∀ {side' : Side} {t : Path}, side'.Target t → s.Holds t → (s.put l e).Holds t) :
    (s.put l e).Sound := by
  refine ⟨fun p hp t => ?_, fun side' l' hl' t hlink => ?_, hs.tracked⟩
  · have hne : p ≠ l := ne_of_mem_links (slot_notMem_links hp) hl
    rw [Disk.put_files, Function.update_of_ne hne]
    exact hs.plain p hp t
  · by_cases heq : l' = l
    · subst heq
      obtain rfl := links_disjoint hl hl'
      rw [Disk.put_files, Function.update_self] at hlink
      obtain ⟨ht, hholds⟩ := he t hlink
      exact ⟨ht, hstays ht hholds⟩
    · rw [Disk.put_files, Function.update_of_ne heq] at hlink
      obtain ⟨ht, hholds⟩ := hs.linked side' l' hl' t hlink
      exact ⟨ht, hstays ht hholds⟩

theorem Relink.sound (h : Relink W side s s') (hs : s.Sound) : s'.Sound := by
  have hchange : Changes W [side] s s' := ⟨side, List.mem_cons_self, Or.inr h⟩
  have hstays : ∀ {side' : Side} {t : Path}, side'.Target t → s.Holds t → s'.Holds t :=
    fun ht => ht.stays hchange
  cases h with
  | link hl ht hholds =>
    refine hs.put_link hl (fun t' heq => ?_) hstays
    obtain rfl := (Entry.link.injEq _ _).mp (Option.some.inj heq)
    exact ⟨ht, hholds⟩
  | unlink hl => exact hs.put_link hl (fun t' heq => absurd heq (by simp)) hstays
  | @migrate version bytes executable hside hversion hwritten hfile =>
    refine ⟨fun p hp t' => ?_, fun side' l' hl' t' hlink => ?_, hs.tracked⟩
    · have hne : p ≠ binaryPath :=
        ne_of_mem_links (slot_notMem_links hp : p ∉ Side.tool.links) List.mem_cons_self
      dsimp only
      rw [Function.update_of_ne hne]
      by_cases hp' : p = versionedBinaryPath version
      · rw [hp', Function.update_self]
        simp
      · rw [Function.update_of_ne hp']
        exact hs.plain p hp t'
    · dsimp only at hlink
      by_cases heq : l' = binaryPath
      · rw [heq, Function.update_self] at hlink
        exact absurd hlink (by simp)
      · have hne : l' ≠ versionedBinaryPath version :=
          (ne_of_mem_links (versioned_notMem_links hversion : Side.tool.versioned _ ∉ _) hl').symm
        rw [Function.update_of_ne heq, Function.update_of_ne hne] at hlink
        obtain ⟨ht', hholds'⟩ := hs.linked side' l' hl' t' hlink
        exact ⟨ht', hstays ht' hholds'⟩

theorem Changes.sound (h : Changes W sides s s') (hs : s.Sound) : s'.Sound := by
  obtain ⟨side, -, hfill | hrelink⟩ := h
  · exact hfill.sound hs
  · exact hrelink.sound hs

/-! ### The other side -/

theorem Side.Unchanged.refl (side : Side) (s : Disk) : side.Unchanged s s :=
  ⟨fun _ _ => rfl, fun _ _ => rfl, fun _ => rfl⟩

theorem Side.Unchanged.trans {u : Disk} (h : side.Unchanged s u) (h' : side.Unchanged u s') :
    side.Unchanged s s' :=
  ⟨fun l hl => (h'.links l hl).trans (h.links l hl),
    fun version hv => (h'.versions version hv).trans (h.versions version hv),
    fun hside => (h'.tracked hside).trans (h.tracked hside)⟩

/-- A side writes no version of the other. -/
theorem Side.Stores.only (h : side.Stores W p) (hne : side' ≠ side) :
    ¬ (∃ version, IsVersion version ∧ p = side'.versioned version) := by
  rintro ⟨version, hv, hp⟩
  rcases h.2 with ⟨version', hv', rfl⟩ | ⟨name, rfl⟩
  · exact hne (versioned_inj hv hv' hp.symm)
  · exact tempPath_ne_versioned hv hp

theorem Fill.unchanged (h : Fill W side s s') (hne : side' ≠ side) : side'.Unchanged s s' := by
  refine ⟨fun l hl => h.links hl, fun version hv => ?_, fun hside => ?_⟩
  · cases h with
    | skip => rfl
    | store bytes executable hp =>
      exact Function.update_of_ne (fun heq => hp.only hne ⟨version, hv, heq.symm⟩) _ _
    | drop => exact Function.update_of_ne (tempPath_ne_versioned hv).symm _ _
    | build bytes => exact Function.update_of_ne (builtBinary_ne_versioned hv).symm _ _
    | track => rfl
  · cases h with
    | track hnode => exact absurd (hside.trans hnode.symm) hne
    | skip => rfl
    | store => rfl
    | drop => rfl
    | build => rfl

theorem Relink.unchanged (h : Relink W side s s') (hne : side' ≠ side) : side'.Unchanged s s' := by
  have hput : ∀ {l : Path} {e : Option Entry}, l ∈ side.links →
      side'.Unchanged s (s.put l e) := by
    intro l e hl
    refine ⟨fun l' hl' => ?_, fun version hv => ?_, fun _ => rfl⟩
    · have hne' : l' ≠ l := by
        rintro rfl
        exact hne (links_disjoint hl' hl)
      exact Function.update_of_ne hne' _ _
    · exact Function.update_of_ne (ne_of_mem_links (versioned_notMem_links hv) hl) _ _
  cases h with
  | link hl => exact hput hl
  | unlink hl => exact hput hl
  | @migrate version bytes executable hside hversion hwritten hfile =>
    subst hside
    have hbinary : binaryPath ∈ Side.tool.links := List.mem_cons_self
    refine ⟨fun l hl => ?_, fun version' hv => ?_, fun _ => rfl⟩
    · have hne' : l ≠ versionedBinaryPath version :=
        (ne_of_mem_links (versioned_notMem_links hversion : Side.tool.versioned _ ∉ _) hl).symm
      have hne'' : l ≠ binaryPath := by
        rintro rfl
        exact hne (links_disjoint hl hbinary)
      exact (Function.update_of_ne hne'' _ _).trans (Function.update_of_ne hne' _ _)
    · have hne' : side'.versioned version' ≠ Side.tool.versioned version := fun heq =>
        hne (versioned_inj hv hversion heq)
      have hne'' : side'.versioned version' ≠ binaryPath :=
        ne_of_mem_links (versioned_notMem_links hv) hbinary
      exact (Function.update_of_ne hne'' _ _).trans (Function.update_of_ne hne' _ _)

theorem Changes.unchanged (h : Changes W sides s s') (hside : side ∉ sides) :
    side.Unchanged s s' := by
  obtain ⟨side', hmem, hfill | hrelink⟩ := h
  · exact hfill.unchanged fun heq => hside (heq ▸ hmem)
  · exact hrelink.unchanged fun heq => hside (heq ▸ hmem)

end Steps

end Antegen.Cli
