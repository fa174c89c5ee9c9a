import Antegen.VersionChanges

/-!
# Operations of the version manager

What each operation does to the disk: which steps it may make, wherever it fails, and what is at
a path where it succeeds.
-/
namespace Antegen.Cli

open Interrupted

/-! ## Entries of a path -/

/-- What is at the path satisfies `E`, and the disk is sound. -/
structure Disk.At (t : Path) (E : Option Entry → Prop) (s : Disk) : Prop where
  entry : E (s.files t)
  sound : s.Sound

/-- A file is there, and the disk is sound. -/
structure Disk.Ready (t : Path) (s : Disk) : Prop where
  holds : s.Holds t
  sound : s.Sound

/-- The files are those of `s₀`. -/
structure Disk.Same (s₀ s : Disk) : Prop where
  files : s.files = s₀.files
  sound : s.Sound

/-- The answer of the server to a URL, as it is stored. -/
def Stored (m : Machine) (url : Text) (e : Option Entry) : Prop :=
  ∃ bytes executable, m.download url = .ok bytes ∧ e = some (.file bytes executable)

/-- The answer of the server to a URL, as a binary. -/
def Downloaded (m : Machine) (url : Text) (e : Option Entry) : Prop :=
  ∃ bytes, m.download url = .ok bytes ∧ e = some (.file bytes true)

/-- What is there stays, whatever it is. Where nothing is, the answer of the server is put. -/
def Supplied (m : Machine) (url : Text) : Option Entry → Option Entry → Prop
  | some entry, e => e = some entry
  | none, e => Downloaded m url e

/-- What `fs::copy` has written, with the permissions that it has set. -/
def Disk.Copied (s₀ : Disk) (source dst : Path) (e : Option Entry) : Prop :=
  ∃ bytes executable, s₀.binary source = some (bytes, executable) ∧
    e = some (.file (s₀.copied source dst bytes) executable)

/-- The binary that is made of it. Of a binary that was copied to itself nothing is left. -/
def Disk.CopiedBinary (s₀ : Disk) (source dst : Path) (e : Option Entry) : Prop :=
  ∃ bytes executable, s₀.binary source = some (bytes, executable) ∧
    e = some (.file (s₀.copied source dst bytes) true)

/-- A binary with the bytes of such a file. -/
def Permitted (E : Option Entry → Prop) (e : Option Entry) : Prop :=
  ∃ bytes executable, E (some (.file bytes executable)) ∧ e = some (.file bytes true)

/-- Changes of these sides that leave the links alone. -/
def Fills (W : Path → Prop) (sides : List Side) (s s' : Disk) : Prop :=
  ∃ side ∈ sides, Fill W side s s'

/-- No file is written. -/
def nowhere (_ : Path) : Prop := False

section Stable

variable {W W' : Path → Prop} {E E' : Option Entry → Prop} {side : Side} {sides : List Side}
  {m : Machine} {s s₀ s' : Disk} {t p : Path} {url : Text} {e e' : Option Entry}

theorem Fills.changes (h : Fills W sides s s') : Changes W sides s s' := by
  obtain ⟨side, hmem, hfill⟩ := h
  exact ⟨side, hmem, Or.inl hfill⟩

theorem Fills.mono (hW : ∀ p, W p → W' p) (h : Fills W sides s s') : Fills W' sides s s' := by
  obtain ⟨side, hmem, hfill⟩ := h
  exact ⟨side, hmem, hfill.mono hW⟩

theorem Fills.links (h : Fills W sides s s') {l : Path} (hl : l ∈ side.links) :
    s'.files l = s.files l := by
  obtain ⟨side, -, hfill⟩ := h
  exact hfill.links hl

theorem Disk.Ready.stays (ht : side.Target t) (h : Changes W sides s s') (hs : s.Ready t) :
    s'.Ready t := ⟨ht.stays h hs.holds, h.sound hs.sound⟩

theorem Disk.At.kept (ht : side.Target t) (hW : ¬ W t) (h : Changes W sides s s')
    (hs : s.At t E) : s'.At t E := by
  refine ⟨?_, h.sound hs.sound⟩
  rw [h.same hW ht.notMem_links]
  exact hs.entry

theorem Disk.At.imp (hE : ∀ e, E e → E' e) (hs : s.At t E) : s.At t E' :=
  ⟨hE _ hs.entry, hs.sound⟩

theorem Disk.At.ready (ht : Slot t) (hE : ∀ e, E e → e ≠ none) (hs : s.At t E) : s.Ready t := by
  refine ⟨?_, hs.sound⟩
  have hsome := hE _ hs.entry
  cases hfile : s.files t with
  | none => exact absurd hfile hsome
  | some entry =>
    cases entry with
    | file bytes executable => exact ⟨bytes, executable, hfile⟩
    | link target => exact absurd hfile (hs.sound.plain t ht target)

theorem Disk.Sound.skip (hs : s.Sound) : s.skip.Sound := ⟨hs.plain, hs.linked, hs.tracked⟩

theorem Disk.At.skip (hs : s.At t E) : s.skip.At t E := ⟨hs.entry, hs.sound.skip⟩

theorem Disk.Same.skip (hs : s₀.Same s) : s₀.Same s.skip := ⟨hs.files, hs.sound.skip⟩

theorem Disk.Sound.same (hs : s.Sound) (h : s' = s) : s.Same s' := by
  subst h
  exact ⟨rfl, hs⟩

theorem Disk.Same.entry (hs : s₀.Same s) (t : Path) : s.At t (· = s₀.files t) :=
  ⟨congrFun hs.files t, hs.sound⟩

theorem Disk.Same.resolve (hs : s₀.Same s) (p : Path) : s.resolve p = s₀.resolve p := by
  unfold Disk.resolve
  rw [hs.files]

theorem Disk.Same.binary (hs : s₀.Same s) (p : Path) : s.binary p = s₀.binary p := by
  unfold Disk.binary
  rw [hs.resolve, hs.files]

theorem Supplied.ne_none (h : Supplied m url e e') : e' ≠ none := by
  cases e with
  | some entry =>
    rw [show e' = some entry from h]
    exact Option.some_ne_none entry
  | none =>
    obtain ⟨bytes, -, rfl⟩ := h
    exact Option.some_ne_none _

theorem Supplied.of_some {entry : Entry} (h : Supplied m url e e') (he : e = some entry) :
    e' = some entry := by
  subst he
  exact h

/-- What was supplied is there. -/
theorem Supplied.trans {e'' : Option Entry} (h : Supplied m url e e') (h' : Supplied m url e' e'') :
    Supplied m url e e'' := by
  obtain ⟨entry, rfl⟩ := Option.ne_none_iff_exists'.mp h.ne_none
  rw [show e'' = some entry from h']
  exact h

theorem Permitted.downloaded (h : Permitted (Stored m url) e) : Downloaded m url e := by
  obtain ⟨bytes, executable, ⟨bytes', executable', hurl, heq⟩, rfl⟩ := h
  obtain ⟨rfl, -⟩ := Entry.file.inj (Option.some.inj heq)
  exact ⟨bytes, hurl, rfl⟩

theorem Permitted.copiedBinary {source : Path} (h : Permitted (s₀.Copied source t) e) :
    s₀.CopiedBinary source t e := by
  obtain ⟨bytes, executable, ⟨bytes', executable', hbinary, heq⟩, rfl⟩ := h
  obtain ⟨rfl, -⟩ := Entry.file.inj (Option.some.inj heq)
  exact ⟨bytes', executable', hbinary, rfl⟩

theorem Disk.CopiedBinary.ne_none {source : Path} (h : s₀.CopiedBinary source t e) :
    e ≠ none := by
  obtain ⟨bytes, executable, -, rfl⟩ := h
  exact Option.some_ne_none _

theorem Downloaded.ne_none (h : Downloaded m url e) : e ≠ none := by
  obtain ⟨bytes, -, rfl⟩ := h
  exact Option.some_ne_none _

theorem Downloaded.supplied (h : Downloaded m url e') : Supplied m url none e' := h

theorem resolve_slot (hs : s.Sound) (hp : Slot t) : s.resolve t = some t := by
  have hplain := hs.plain t hp
  unfold Disk.resolve Disk.maxLinks Disk.followLinks
  split
  · rename_i hlink
    exact absurd hlink (hplain _)
  · rfl

theorem binary_slot (hs : s.Sound) (hp : Slot t) {bytes : List UInt8} {executable : Bool} :
    s.binary t = some (bytes, executable) ↔ s.files t = some (.file bytes executable) := by
  have hplain := hs.plain t hp
  cases hfile : s.files t with
  | none => simp [Disk.binary, resolve_slot hs hp, hfile]
  | some e =>
    cases e with
    | file bytes executable => simp [Disk.binary, resolve_slot hs hp, hfile]
    | link target => exact absurd hfile (hplain target)

theorem exists_slot (hs : s.Sound) (hp : Slot t) : s.exists? t = true ↔ s.files t ≠ none := by
  have hplain := hs.plain t hp
  cases hfile : s.files t with
  | none => simp [Disk.exists?, Disk.binary, resolve_slot hs hp, hfile]
  | some e =>
    cases e with
    | file bytes executable => simp [Disk.exists?, Disk.binary, resolve_slot hs hp, hfile]
    | link target => exact absurd hfile (hplain target)

end Stable

/-! ## Operations -/

section Operations

variable {W : Path → Prop} {E I : Disk → Prop} {side : Side} {sides : List Side} {m : Machine}
  {s₀ : Disk} {p t : Path} {url name : Text}

/-- An operation that leaves the links alone. -/
theorem does_changes {α : Type} {P : Disk → Prop} {c : Install α} {Q : α → Disk → Prop}
    (h : Does (Fills W sides) P c Q) : Does (Changes W sides) P c Q :=
  h.mono fun _ _ => Fills.changes

theorem attempt_does (hside : side ∈ sides) (hI : ∀ s, I s → I s.skip) (e : String) :
    Does (Fills W sides) I (attempt e) fun _ => I := by
  refine Does.step fun s hs => ?_
  have hskip : Fills W sides s s.skip := ⟨side, hside, .skip s⟩
  unfold attempt
  cases s.fault with
  | none => exact Or.inr ⟨(), _, rfl, hskip, hI s hs⟩
  | fails => exact Or.inl ⟨e, _, rfl, hskip⟩
  | short n => exact Or.inl ⟨e, _, rfl, hskip⟩

theorem writeOut_does (hside : side ∈ sides) (hp : side.Stores W t) (bytes : List UInt8)
    (executable : Bool) (e e' : String) :
    Does (Fills W sides) Disk.Sound (writeOut t bytes executable e e')
      fun _ => Disk.At t (· = some (.file bytes executable)) := by
  refine Does.step fun s hs => ?_
  have hstore : ∀ bytes, Fills W sides s (s.put t (some (.file bytes executable))) :=
    fun bytes => ⟨side, hside, .store s bytes executable hp⟩
  unfold writeOut
  cases s.fault with
  | none =>
    refine Or.inr ⟨(), _, rfl, hstore bytes, ?_, (hstore bytes).changes.sound hs⟩
    rw [Disk.put_files, Function.update_self]
  | fails => exact Or.inl ⟨e, _, rfl, side, hside, .skip s⟩
  | short n => exact Or.inl ⟨e', _, rfl, hstore _⟩

theorem createFile_does (hside : side ∈ sides) (hW : W (tempPath name)) (bytes : List UInt8)
    (e e' : String) :
    Does (Fills W sides) Disk.Sound (createFile (tempPath name) bytes e e')
      fun _ => Disk.At (tempPath name)
        fun e => ∃ executable, e = some (.file bytes executable) := by
  refine Does.bind_read fun s hs => ?_
  rw [resolve_slot hs (.temp name)]
  have hwrite := writeOut_does (W := W) hside ⟨hW, Or.inr ⟨name, rfl⟩⟩ bytes
    (s.executable (tempPath name)) e e'
  exact (hwrite.from_eq hs).weaken (fun _ hs => hs) fun _ _ h => h.imp fun _ heq => ⟨_, heq⟩

theorem copy_does (hside : side ∈ sides) (hp : side.Stores W t) (ht : Slot t)
    (source : Path) (e : String) :
    Does (Fills W sides) (Disk.Same s₀) (copy source t e)
      fun _ => Disk.At t (s₀.Copied source t) := by
  refine Does.bind_read fun s hs => ?_
  rw [resolve_slot hs.sound ht, hs.binary]
  cases hsource : s₀.binary source with
  | none => exact Does.fail
  | some binary =>
    have hcopied : s.copied source t binary.1 = s₀.copied source t binary.1 := by
      unfold Disk.copied
      rw [hs.resolve]
    have hwrite := writeOut_does (W := W) hside hp (s.copied source t binary.1) binary.2 e e
    refine (hwrite.from_eq hs.sound).weaken (fun _ hs => hs) fun _ _ h => h.imp fun e heq => ?_
    exact ⟨binary.1, binary.2, hsource, by rw [heq, hcopied]⟩

theorem setPermissions_does {E : Option Entry → Prop} (hside : side ∈ sides)
    (hp : side.Stores W t) (ht : Slot t) :
    Does (Fills W sides) (Disk.At t E) (setPermissions t) fun _ => Disk.At t (Permitted E) := by
  refine Does.step fun s hs => ?_
  have hskip : Fills W sides s s.skip := ⟨side, hside, .skip s⟩
  have hfailed : ∃ e s', (((Except.error ioError : Except String Unit), s.skip) = (.error e, s')) ∧
      Fills W sides s s' := ⟨ioError, _, rfl, hskip⟩
  unfold setPermissions
  rw [resolve_slot hs.sound ht]
  cases s.fault with
  | none =>
    dsimp only
    cases hfile : s.files t with
    | none => exact Or.inl hfailed
    | some entry =>
      cases entry with
      | link target => exact Or.inl hfailed
      | file bytes executable =>
        have hstore : Fills W sides s (s.put t (some (.file bytes true))) :=
          ⟨side, hside, .store s bytes true hp⟩
        refine Or.inr ⟨(), _, rfl, hstore, ⟨bytes, executable, ?_, ?_⟩, ?_⟩
        · rw [← hfile]
          exact hs.entry
        · rw [Disk.put_files, Function.update_self]
        · exact hstore.changes.sound hs.sound
  | fails => exact Or.inl hfailed
  | short n => exact Or.inl hfailed

/-- A file that was copied becomes a binary. -/
theorem permitCopied_does (hside : side ∈ sides) (hp : side.Stores W t) (ht : Slot t)
    (source : Path) :
    Does (Fills W sides) (Disk.At t (s₀.Copied source t)) (setPermissions t)
      fun _ => Disk.At t (s₀.CopiedBinary source t) :=
  (setPermissions_does hside hp ht).weaken (fun _ hs => hs)
    fun _ _ h => h.imp fun _ => Permitted.copiedBinary

/-- A temporary file may go or stay. -/
theorem removeTemp_does {E : Option Entry → Prop} (hside : side ∈ sides) (ht : side.Target t)
    (hW : W (tempPath name)) (e : String) :
    Does (Fills W sides) (Disk.At t E) (removeFile (tempPath name) e).ignore
      fun _ => Disk.At t E := by
  have hremove : Does (Fills (· = tempPath name) sides) (Disk.At t E)
      (removeFile (tempPath name) e) fun _ _ => True := by
    refine Does.step fun s _ => ?_
    unfold removeFile
    split
    · exact Or.inr ⟨(), _, rfl, ⟨side, hside, .drop s rfl⟩, trivial⟩
    · exact Or.inl ⟨e, _, rfl, side, hside, .skip s⟩
  have hkept := hremove.ignore
    (fun _ _ h hs => hs.kept ht (ht.ne_tempPath name) h.changes) fun _ hs => hs
  exact hkept.mono fun _ _ => Fills.mono fun p hp => hp ▸ hW

theorem downloadBinary_does (hside : side ∈ sides) (hW : W (tempPath name)) :
    Does (Fills W sides) Disk.Sound (downloadBinary m url name)
      fun temp s => temp = tempPath name ∧ s.At (tempPath name) (Stored m url) := by
  unfold downloadBinary
  split
  · exact Does.fail
  · rename_i bytes hurl
    refine (createFile_does hside hW bytes _ _).bind fun _ => Does.pure fun s hs => ⟨rfl, ?_⟩
    refine hs.imp fun e he => ?_
    obtain ⟨executable, heq⟩ := he
    exact ⟨bytes, executable, hurl, heq⟩

theorem installBinaryTo_does (hside : side ∈ sides) {version : Text} (hv : IsVersion version)
    (hW : W (side.versioned version)) (htemp : W (tempPath name)) :
    Does (Fills W sides) (Disk.At (tempPath name) (Stored m url))
      (installBinaryTo (tempPath name) (side.versioned version))
      fun _ => Disk.At (side.versioned version) (Downloaded m url) := by
  have ht : side.Target (side.versioned version) := Or.inr ⟨version, hv, rfl⟩
  have hp : side.Stores W (side.versioned version) := ⟨hW, Or.inl ⟨version, hv, rfl⟩⟩
  refine Does.seq (attempt_does hside (fun _ hs => hs.skip) _) (Does.of_forall fun s hs => ?_)
  obtain ⟨bytes, executable, hurl, hfile⟩ := hs.entry
  have hsource : s.resolve (tempPath name) = some (tempPath name) :=
    resolve_slot hs.sound (.temp name)
  have hbinary : s.binary (tempPath name) = some (bytes, executable) :=
    (binary_slot hs.sound (.temp name)).mpr hfile
  have hcopied : ∀ e, s.Copied (tempPath name) (side.versioned version) e → Stored m url e := by
    rintro e ⟨bytes', executable', hbinary', rfl⟩
    obtain ⟨rfl, rfl⟩ := Prod.mk.inj (Option.some.inj (hbinary.symm.trans hbinary'))
    refine ⟨bytes, executable, hurl, ?_⟩
    have hne : ¬ s.resolve (tempPath name) = some (side.versioned version) := by
      rw [hsource]
      exact fun heq => tempPath_ne_versioned hv (Option.some.inj heq)
    rw [Disk.copied, if_neg hne]
  refine Does.seq ((copy_does hside hp (.versioned side hv) _ _).weaken
    (fun _ heq => hs.sound.same heq) fun _ _ h => h.imp hcopied) ?_
  refine Does.seq ((setPermissions_does hside hp (.versioned side hv)).weaken (fun _ hs => hs)
    fun _ _ h => h.imp fun _ => Permitted.downloaded) ?_
  exact removeTemp_does hside ht htemp _

theorem ensureDownloaded_does (hside : side ∈ sides) {version : Text} (hv : IsVersion version)
    {e : Option Entry} (hW : e = none → W (side.versioned version) ∧ W (tempPath name))
    (url : Text) :
    Does (Fills W sides) (Disk.At (side.versioned version) (· = e))
      (ensureDownloaded m (side.versioned version) url name)
      fun _ => Disk.At (side.versioned version) (Supplied m url e) := by
  refine Does.bind_read fun s hs => Does.ite (fun habsent => ?_) fun hexists =>
    Does.pure fun s' heq => ?_
  · have hnone : e = none := by
      by_contra hsome
      rw [← hs.entry] at hsome
      simp [(exists_slot hs.sound (.versioned side hv)).mpr hsome] at habsent
    subst hnone
    obtain ⟨hversion, htemp⟩ := hW rfl
    refine ((downloadBinary_does hside htemp).from_eq hs.sound).bind fun temp => ?_
    refine Does.of_forall fun s' hs' => ?_
    obtain ⟨rfl, hs'⟩ := hs'
    exact ((installBinaryTo_does hside hv hversion htemp).from_eq hs').weaken (fun _ hs => hs)
      fun _ _ h => h.imp fun _ => Downloaded.supplied
  · obtain ⟨rfl, hsound⟩ := hs
    subst heq
    refine ⟨?_, hsound⟩
    have hexists' : s'.exists? (side.versioned version) = true := by simpa using hexists
    have hsome := (exists_slot hsound (.versioned side hv)).mp hexists'
    obtain ⟨entry, hentry⟩ := Option.ne_none_iff_exists'.mp hsome
    rw [hentry]
    rfl

end Operations

/-! ## Links -/

section Links

variable {W : Path → Prop} {side : Side} {sides : List Side} {t l : Path} {I : Disk → Prop}

theorem removeLink_does (hside : side ∈ sides) (hl : l ∈ side.links) (ht : side.Target t)
    (hput : ∀ s e, I s → I (s.put l e)) (e : String) :
    Does (Changes W sides) (fun s => s.Ready t ∧ I s) (removeFile l e)
      fun _ s => s.Ready t ∧ I s := by
  refine Does.step fun s hs => ?_
  obtain ⟨hready, hI⟩ := hs
  have hunlink : Changes W sides s (s.put l none) := ⟨side, hside, Or.inr (.unlink s hl)⟩
  unfold removeFile
  split
  · exact Or.inr ⟨(), _, rfl, hunlink, hready.stays ht hunlink, hput s none hI⟩
  · exact Or.inl ⟨e, _, rfl, side, hside, Or.inl (.skip s)⟩

theorem symlink_does (hside : side ∈ sides) (hl : l ∈ side.links) (ht : side.Target t)
    (hput : ∀ s e, I s → I (s.put l e)) (e : String) :
    Does (Changes W sides) (fun s => s.Ready t ∧ I s) (symlink t l e)
      fun _ s => (s.Ready t ∧ I s) ∧ s.files l = some (.link t) := by
  refine Does.step fun s hs => ?_
  obtain ⟨hready, hI⟩ := hs
  have hlink : Changes W sides s (s.put l (some (.link t))) :=
    ⟨side, hside, Or.inr (.link s hl ht hready.holds)⟩
  unfold symlink
  split
  · refine Or.inr ⟨(), _, rfl, hlink, ⟨hready.stays ht hlink, hput s _ hI⟩, ?_⟩
    rw [Disk.put_files, Function.update_self]
  · exact Or.inl ⟨e, _, rfl, side, hside, Or.inl (.skip s)⟩

/-- The link leads to the binary, and what does not speak of the link is kept. -/
theorem updateSymlink_does (hside : side ∈ sides) (hl : l ∈ side.links) (ht : side.Target t)
    (hput : ∀ s e, I s → I (s.put l e)) :
    Does (Changes W sides) (fun s => s.Ready t ∧ I s) (updateSymlink l t)
      fun _ s => (s.Ready t ∧ I s) ∧ s.files l = some (.link t) := by
  refine Does.bind_read fun s hs => ?_
  have hstart : ∀ s', s' = s → s'.Ready t ∧ I s' := fun s' heq => heq ▸ hs
  refine Does.ite (fun _ => ?_) fun _ => ?_
  · exact Does.seq ((removeLink_does hside hl ht hput _).weaken hstart fun _ _ h => h)
      (symlink_does hside hl ht hput _)
  · exact (symlink_does hside hl ht hput _).weaken hstart fun _ _ h => h

/-- What is at a target does not speak of a link. -/
theorem put_link_entry {E : Option Entry → Prop} {p : Path} (hl : l ∈ side.links) (hp : Slot p)
    (s : Disk) (e : Option Entry) (h : E (s.files p)) : E ((s.put l e).files p) := by
  rw [Disk.put_files, Function.update_of_ne (ne_of_mem_links (slot_notMem_links hp) hl)]
  exact h

end Links

/-- Both links of the tool lead to the file, which is there. -/
structure Disk.Active (t : Path) (s : Disk) : Prop where
  ready : s.Ready t
  antegen : s.files binaryPath = some (.link t)
  antegenctl : s.files antegenctlSymlinkPath = some (.link t)

section Tool

variable {W : Path → Prop} {E : Option Entry → Prop} {I : Disk → Prop} {sides : List Side}
  {m : Machine} {t : Path} {version : Text}

theorem updateSymlinks_does (hside : .tool ∈ sides) (ht : Side.tool.Target t)
    (hput : ∀ l ∈ Side.tool.links, ∀ s e, I s → I (s.put l e)) :
    Does (Changes W sides) (fun s => s.Ready t ∧ I s) (updateSymlinks t)
      fun _ s => s.Active t ∧ I s := by
  have hbinary : binaryPath ∈ Side.tool.links := List.mem_cons_self
  have hctl : antegenctlSymlinkPath ∈ Side.tool.links :=
    List.mem_cons_of_mem _ List.mem_cons_self
  have hne : binaryPath ≠ antegenctlSymlinkPath := by decide +kernel
  have hkept : ∀ (s : Disk) (e : Option Entry), (I s ∧ s.files binaryPath = some (.link t)) →
      I (s.put antegenctlSymlinkPath e) ∧
        (s.put antegenctlSymlinkPath e).files binaryPath = some (.link t) := by
    rintro s e ⟨hI, hlink⟩
    refine ⟨hput _ hctl s e hI, ?_⟩
    rw [Disk.put_files, Function.update_of_ne hne, hlink]
  have hfirst : Does (Changes W sides) (fun s => s.Ready t ∧ I s) (updateSymlink binaryPath t)
      fun _ s => s.Ready t ∧ I s ∧ s.files binaryPath = some (.link t) :=
    (updateSymlink_does hside hbinary ht (hput _ hbinary)).weaken (fun _ hs => hs)
      fun _ _ h => ⟨h.1.1, h.1.2, h.2⟩
  refine Does.seq hfirst ?_
  exact (updateSymlink_does hside hctl ht hkept).weaken (fun _ hs => hs)
    fun _ _ h => ⟨⟨h.1.1, h.1.2.2, h.2⟩, h.1.2.1⟩

/-- The links lead to what is at the path. -/
theorem activate_does (hside : .tool ∈ sides) (ht : Side.tool.Target t)
    (hE : ∀ e, E e → e ≠ none) :
    Does (Changes W sides) (Disk.At t E) (updateSymlinks t)
      fun _ s => s.Active t ∧ E (s.files t) :=
  (updateSymlinks_does hside ht fun _ hl => put_link_entry hl ht.slot).weaken
    (fun _ hs => ⟨hs.ready ht.slot hE, hs.entry⟩) fun _ _ h => h

theorem useVersion_does (hside : .tool ∈ sides) (hv : IsVersion version) {e : Option Entry}
    (hW : e = none → W (versionedBinaryPath version) ∧ W (tempPath name)) {url : Text} :
    Does (Changes W sides) (Disk.At (versionedBinaryPath version) (· = e)) (do
      ensureDownloaded m (versionedBinaryPath version) url name
      updateSymlinks (versionedBinaryPath version))
      fun _ s => s.Active (versionedBinaryPath version) ∧
        Supplied m url e (s.files (versionedBinaryPath version)) := by
  have ht : Side.tool.Target (versionedBinaryPath version) := Or.inr ⟨version, hv, rfl⟩
  have hdownload : Does (Fills W sides) (Disk.At (Side.tool.versioned version) (· = e))
      (ensureDownloaded m (Side.tool.versioned version) url name)
      fun _ => Disk.At (Side.tool.versioned version) (Supplied m url e) :=
    ensureDownloaded_does hside hv hW url
  exact Does.seq (does_changes hdownload) (activate_does hside ht fun _ => Supplied.ne_none)

/-- The file that is moved replaces what is at its version. -/
theorem rename_does (hside : .tool ∈ sides) (ht : Side.tool.Target t) (hv : IsVersion version)
    (hW : W (versionedBinaryPath version)) (hE : ∀ e, E e → e ≠ none) {bytes : List UInt8}
    {executable : Bool} (error : String) :
    Does (Changes W sides)
      (fun s => s.At t E ∧ s.files binaryPath = some (.file bytes executable))
      (rename binaryPath (versionedBinaryPath version) error)
      fun _ s => s.Ready t ∧
        s.files (versionedBinaryPath version) = some (.file bytes executable) ∧
        (t ≠ versionedBinaryPath version → E (s.files t)) := by
  refine Does.step fun s hs => ?_
  obtain ⟨hat, hfile⟩ := hs
  have hskip : Changes W sides s s.skip := ⟨.tool, hside, Or.inl (.skip s)⟩
  have hbinary : binaryPath ∈ Side.tool.links := List.mem_cons_self
  unfold rename
  split
  · rename_i entry hfault hentry
    obtain rfl := Option.some.inj (hfile.symm.trans hentry)
    have hchanges : Changes W sides s _ := ⟨.tool, hside, Or.inr (.migrate s rfl hv hW hfile)⟩
    have hready := (hat.ready ht.slot hE).stays ht hchanges
    refine Or.inr ⟨(), _, rfl, hchanges, hready, ?_, fun hne => ?_⟩
    · have hlink : versionedBinaryPath version ≠ binaryPath :=
        ne_of_mem_links (versioned_notMem_links hv : Side.tool.versioned _ ∉ _) hbinary
      dsimp only
      rw [Function.update_of_ne hlink, Function.update_self]
    · have hlink : t ≠ binaryPath := ne_of_mem_links (slot_notMem_links ht.slot) hbinary
      dsimp only
      rw [Function.update_of_ne hlink, Function.update_of_ne hne]
      exact hat.entry
  · exact Or.inl ⟨error, _, rfl, hskip⟩

/-- The file that was no link becomes a version of its own. -/
theorem migrate_does (hside : .tool ∈ sides) (ht : Side.tool.Target t) (hv : IsVersion version)
    (hW : W (versionedBinaryPath version)) (hE : ∀ e, E e → e ≠ none) {bytes : List UInt8}
    {executable : Bool} (error : String) :
    Does (Changes W sides)
      (fun s => s.At t E ∧ s.files binaryPath = some (.file bytes executable)) (do
        rename binaryPath (versionedBinaryPath version) error
        updateSymlinks t)
      fun _ s => s.Active t ∧
        s.files (versionedBinaryPath version) = some (.file bytes executable) ∧
        (t ≠ versionedBinaryPath version → E (s.files t)) := by
  have hmoved : Slot (versionedBinaryPath version) := .versioned .tool hv
  refine Does.seq (rename_does hside ht hv hW hE error) ?_
  refine updateSymlinks_does hside ht fun l hl s e hs => ⟨?_, fun hne => ?_⟩
  · exact put_link_entry (E := (· = some (.file bytes executable))) hl hmoved s e hs.1
  · exact put_link_entry hl ht.slot s e (hs.2 hne)

end Tool

/-! ## The version that is asked for -/

/-- Whatever is called a version names a file. -/
structure Machine.Named (m : Machine) : Prop where
  current : IsVersion m.currentVersion
  releases : ∀ releases, m.releases = some releases → ∀ r ∈ releases, '/' ∉ r
  nodeReleases : ∀ releases, m.nodeReleases = some releases → ∀ r ∈ releases, '/' ∉ r
  words : ∀ bytes words, m.versionWords bytes = some words → ∀ word ∈ words, '/' ∉ word

/-- The given version, or the latest. -/
def Chosen (latest : Except String Text) : Option Text → Text → Prop
  | some version, chosen => chosen = normalizeVersion version
  | none, chosen => latest = .ok chosen

section Versions

variable {m : Machine} {version : Option Text} {chosen : Text}

theorem latestVersion_isVersion (hm : m.Named) (h : m.fetchLatestVersion = .ok chosen) :
    IsVersion chosen := by
  unfold Machine.fetchLatestVersion at h
  split at h
  · exact absurd h (by simp)
  · rename_i releases hreleases
    split at h
    · exact absurd h (by simp)
    · rename_i r hfind
      obtain rfl := Except.ok.inj h
      exact .normalize (hm.releases releases hreleases r (List.mem_of_find?_eq_some hfind))

theorem latestNodeVersion_isVersion (hm : m.Named) (h : m.fetchLatestNodeVersion = .ok chosen) :
    IsVersion chosen := by
  unfold Machine.fetchLatestNodeVersion at h
  split at h
  · exact absurd h (by simp)
  · rename_i releases hreleases
    split at h
    · exact absurd h (by simp)
    · rename_i r hfind
      obtain rfl := Except.ok.inj h
      have hr := hm.nodeReleases releases hreleases r (List.mem_of_find?_eq_some hfind)
      refine .normalize ?_
      cases hstrip : stripPrefix "node-".toList r with
      | none => exact hr
      | some rest => exact stripPrefix_slash hstrip hr

theorem nodeUpdate_isVersion (hm : m.Named) (h : m.fetchNodeUpdate = .ok chosen) :
    IsVersion chosen := by
  unfold Machine.fetchNodeUpdate at h
  split at h
  · rename_i version hnode
    obtain rfl := Except.ok.inj h
    exact latestNodeVersion_isVersion hm hnode
  · exact latestVersion_isVersion hm h

theorem Chosen.isVersion {latest : Except String Text}
    (hlatest : ∀ version, latest = .ok version → IsVersion version)
    (hv : ∀ v, version = some v → '/' ∉ v) (h : Chosen latest version chosen) :
    IsVersion chosen := by
  cases version with
  | none => exact hlatest chosen h
  | some v =>
    obtain rfl := h
    exact .normalize (hv v rfl)

theorem requestedVersion_does {R : Disk → Disk → Prop} {P : Disk → Prop}
    (latest : Except String Text) (version : Option Text) :
    Does R P (requestedVersion latest version)
      fun chosen s => P s ∧ Chosen latest version chosen := by
  cases version with
  | some v => exact Does.pure fun s hs => ⟨hs, rfl⟩
  | none => exact Does.ofExcept fun chosen s h hs => ⟨hs, h⟩

theorem require_does {R : Disk → Disk → Prop} {P : Disk → Prop} {b : Bool} (e : String) :
    Does R P (require b e) fun _ s => P s ∧ b = true := by
  unfold require
  exact Does.ite (fun hb => Does.pure fun s hs => ⟨hs, hb⟩) fun _ => Does.fail

end Versions

end Antegen.Cli
