import Antegen.CliVersions
import Antegen.Interrupted

/-!
# The version manager of the command line tool

The versions of the tool and of the node are files in `~/.local/bin`. Links name the active
ones, and `~/.antegen/node-version` names that of the node once more. The commands download,
copy and link. Each of their operations on the file system can fail, and a write can be cut
short before it does.

Paths are relative to the home directory, which is no workspace itself. Of the permissions of a
file only one matters here, whether it can be executed.
-/
namespace Antegen.Cli

open Interrupted

abbrev Path := Text

inductive Entry
  | file (bytes : List UInt8) (executable : Bool)
  | link (target : Path)
  deriving DecidableEq

/-- What becomes of an operation. A write that is cut short leaves the first bytes. -/
inductive Fault
  | none
  | fails
  | short (n : ℕ)
  deriving DecidableEq

structure Disk where
  files : Path → Option Entry
  /-- The content of `~/.antegen/node-version`. -/
  nodeVersion : Option Text
  /-- What the next operations meet, none if there are no more. -/
  faults : List Fault

/-! ## Files and links -/

namespace Disk

/-- As many links the operating system follows. -/
def maxLinks : ℕ := 40

/-- The path that the links from the given one lead to. -/
def followLinks (files : Path → Option Entry) : ℕ → Path → Option Path
  | n, p =>
    match files p with
    | some (.link target) =>
      match n with
      | 0 => none
      | n + 1 => followLinks files n target
    | _ => some p

def resolve (s : Disk) (p : Path) : Option Path := followLinks s.files maxLinks p

/-- The file that a path leads to, and whether it can be executed. -/
def binary (s : Disk) (p : Path) : Option (List UInt8 × Bool) := do
  let q ← s.resolve p
  match s.files q with
  | some (.file bytes executable) => some (bytes, executable)
  | _ => none

def contents (s : Disk) (p : Path) : Option (List UInt8) := (s.binary p).map Prod.fst

def exists? (s : Disk) (p : Path) : Bool := (s.binary p).isSome

/-- Whether there is a file at the path that can be executed. -/
def executable (s : Disk) (p : Path) : Bool :=
  match s.files p with
  | some (.file _ executable) => executable
  | _ => false

def readLink (s : Disk) (p : Path) : Option Path :=
  match s.files p with
  | some (.link target) => some target
  | _ => none

def isSymlink (s : Disk) (p : Path) : Bool := (s.readLink p).isSome

def fault (s : Disk) : Fault := s.faults.headD .none

/-- The disk after an operation that has put an entry somewhere. -/
def put (s : Disk) (p : Path) (e : Option Entry) : Disk :=
  { s with files := Function.update s.files p e, faults := s.faults.tail }

/-- The disk after an operation without effect. -/
def skip (s : Disk) : Disk := { s with faults := s.faults.tail }

end Disk

abbrev Install := Action Disk String

/-- The text of an error that is reported without context. -/
def ioError : String := "io error"

def require (b : Bool) (error : String) : Install Unit := if b then pure () else Action.fail error

/-- An operation that changes nothing here, but can fail. -/
def attempt (error : String) : Install Unit := fun s =>
  match s.fault with
  | .none => (.ok (), s.skip)
  | _ => (.error error, s.skip)

/-- `fs::create_dir_all`. -/
def createDirAll : Install Unit := attempt ioError

/-- `fs::set_permissions` to `0o755`, which every caller gives. -/
def setPermissions (p : Path) : Install Unit := fun s =>
  match s.fault, s.resolve p with
  | .none, some q =>
    match s.files q with
    | some (.file bytes _) => (.ok (), s.put q (some (.file bytes true)))
    | _ => (.error ioError, s.skip)
  | _, _ => (.error ioError, s.skip)

/-- Opens a file, which empties it, and writes to it. -/
def writeOut (dst : Path) (bytes : List UInt8) (executable : Bool)
    (openError writeError : String) : Install Unit := fun s =>
  match s.fault with
  | .none => (.ok (), s.put dst (some (.file bytes executable)))
  | .fails => (.error openError, s.skip)
  | .short n => (.error writeError, s.put dst (some (.file (bytes.take n) executable)))

/-- `fs::File::create` and `write_all`. A file that is there keeps its permissions. -/
def createFile (p : Path) (bytes : List UInt8) (openError writeError : String) : Install Unit := do
  let s ← Action.read
  match s.resolve p with
  | some dst => writeOut dst bytes (s.executable dst) openError writeError
  | none => Action.fail openError

/-- What `fs::copy` reads. It has opened and emptied the destination before, so a file that is
copied to itself is empty afterwards. -/
def Disk.copied (s : Disk) (source dst : Path) (bytes : List UInt8) : List UInt8 :=
  if s.resolve source = some dst then [] else bytes

/-- `fs::copy`, which gives the destination the permissions of the source before it writes. -/
def copy (source p : Path) (error : String) : Install Unit := do
  let s ← Action.read
  match s.binary source, s.resolve p with
  | some (bytes, executable), some dst =>
    writeOut dst (s.copied source dst bytes) executable error error
  | _, _ => Action.fail error

def removeFile (p : Path) (error : String) : Install Unit := fun s =>
  match s.fault, s.files p with
  | .none, some _ => (.ok (), s.put p none)
  | _, _ => (.error error, s.skip)

def symlink (target p : Path) (error : String) : Install Unit := fun s =>
  match s.fault, s.files p with
  | .none, none => (.ok (), s.put p (some (.link target)))
  | _, _ => (.error error, s.skip)

def rename (source dst : Path) (error : String) : Install Unit := fun s =>
  match s.fault, s.files source with
  | .none, some entry =>
    (.ok (), { s with
      files := Function.update (Function.update s.files dst (some entry)) source none
      faults := s.faults.tail })
  | _, _ => (.error error, s.skip)

/-! ## Paths and versions -/

def binaryPath : Path := ".local/bin/antegen".toList

def antegenctlSymlinkPath : Path := ".local/bin/antegenctl".toList

def versionedBinaryPath (version : Text) : Path := ".local/bin/antegen-".toList ++ version

def nodeBinaryPath : Path := ".local/bin/antegen-node".toList

def versionedNodeBinaryPath (version : Text) : Path := ".local/bin/antegen-node-".toList ++ version

/-- The binary that cargo installs. -/
def cargoBin : Path := ".cargo/bin/antegen".toList

/-- A file in the directory for temporary files. -/
def tempPath (name : Text) : Path := "/tmp/".toList ++ name

def fileName (p : Path) : Text := (p.reverse.takeWhile (· ≠ '/')).reverse

def withFileName (p : Path) (name : Text) : Path := (p.reverse.dropWhile (· ≠ '/')).reverse ++ name

def stripPrefix (pre text : Text) : Option Text :=
  if pre.isPrefixOf text then some (text.drop pre.length) else none

def normalizeVersion (version : Text) : Text :=
  if version.head? = some 'v' then version else 'v' :: version

def minNodeVersion : Text := "v4.1.1".toList

def isNodeVersionSupported (version : Text) : Bool :=
  match parseVersion version, parseVersion minNodeVersion with
  | some v, some min => min ≤ v
  | _, _ => false

/-- The white space of `str::trim`. -/
def isWhiteSpace (c : Char) : Bool :=
  (9 ≤ c.toNat && c.toNat ≤ 13) || c.toNat = 0x20 || c.toNat = 0x85 || c.toNat = 0xA0 ||
    c.toNat = 0x1680 || (0x2000 ≤ c.toNat && c.toNat ≤ 0x200A) || c.toNat = 0x2028 ||
    c.toNat = 0x2029 || c.toNat = 0x202F || c.toNat = 0x205F || c.toNat = 0x3000

def trim (text : Text) : Text :=
  ((text.dropWhile isWhiteSpace).reverse.dropWhile isWhiteSpace).reverse

/-! ## The machine a command runs on -/

/-- What a command meets beside its files. -/
structure Machine where
  /-- `v` and the version of the package. -/
  currentVersion : Text
  currentExe : Option Path
  /-- Whether the feature `prod` is on. -/
  prod : Bool
  platformTarget : Text
  /-- The tags of the releases, as the two lists are fetched. -/
  releases : Option (List Text)
  nodeReleases : Option (List Text)
  /-- What a server answers to a URL. -/
  download : Text → Except String (List UInt8)
  /-- The words a binary prints as its version, if these bytes can be run. -/
  versionWords : List UInt8 → Option (List Text)
  /-- The workspace that the command is run in. -/
  workspaceRoot : Option Path
  /-- What `cargo build` makes of it. -/
  build : Option (List UInt8)
  /-- The answers about the service: whether it is installed, its configuration is there, and
  it can be installed and started. -/
  serviceInstalled : Bool
  configured : Bool
  serviceInstalls : Bool
  serviceStarts : Bool

namespace Machine

/-- The version that the binary at a path prints, if it can be run. -/
def runVersion (m : Machine) (s : Disk) (p : Path) : Option (List Text) := do
  let (bytes, executable) ← s.binary p
  if executable then m.versionWords bytes else none

def fetchLatestVersion (m : Machine) : Except String Text :=
  match m.releases with
  | none => .error "Failed to fetch releases from GitHub"
  | some releases =>
    match releases.find? fun r =>
      !"geyser-".toList.isPrefixOf r && !"node-".toList.isPrefixOf r with
    | none => .error "No CLI releases found"
    | some r => .ok (normalizeVersion r)

def fetchLatestNodeVersion (m : Machine) : Except String Text :=
  match m.nodeReleases with
  | none => .error "Failed to fetch releases from GitHub"
  | some releases =>
    match releases.find? fun r =>
      "node-v".toList.isPrefixOf r || "node-".toList.isPrefixOf r with
    | none => .error "No node releases found on GitHub yet"
    | some r => .ok (normalizeVersion ((stripPrefix "node-".toList r).getD r))

/-- Where there is no node release, the release of the tool. -/
def fetchNodeUpdate (m : Machine) : Except String Text :=
  match m.fetchLatestNodeVersion with
  | .ok version => .ok version
  | .error _ => m.fetchLatestVersion

def releaseUrl : Text := "https://github.com/wuwei-labs/antegen/releases/download/".toList

def buildDownloadUrl (m : Machine) (version : Text) : Text :=
  releaseUrl ++ version ++ "/antegen-".toList ++ version ++ ['-'] ++ m.platformTarget

def buildNodeDownloadUrl (m : Machine) (version : Text) : Text :=
  releaseUrl ++ "node-".toList ++ version ++ "/antegen-node-".toList ++ version ++ ['-'] ++
    m.platformTarget

def inTargetDirectory (exe : Path) : Bool :=
  decide ("/target/debug/".toList <:+: exe) || decide ("/target/release/".toList <:+: exe)

/-- Where a command that was built itself looks for a node that was built beside it. -/
def nodeBeside (m : Machine) : Option Path :=
  if m.prod then none
  else (m.currentExe.filter inTargetDirectory).map fun exe =>
    withFileName exe "antegen-node".toList

def devNode (m : Machine) (s : Disk) : Option Path := m.nodeBeside.filter fun dev => s.exists? dev

/-- What `cargo build` puts into the workspace. -/
def builtBinary (root : Path) : Path := root ++ "/target/release/antegen-node".toList

end Machine

/-! ## Downloads and links -/

def downloadBinary (m : Machine) (url : Text) (name : Text) : Install Path := do
  match m.download url with
  | .error error => Action.fail error
  | .ok bytes => do
    createFile (tempPath name) bytes "Failed to create temp file" "Failed to write temp file"
    pure (tempPath name)

def installBinaryTo (temp dest : Path) : Install Unit := do
  createDirAll
  copy temp dest "Failed to copy binary"
  setPermissions dest
  (removeFile temp ioError).ignore

def updateSymlink (symlinkPath target : Path) : Install Unit := do
  let s ← Action.read
  if s.exists? symlinkPath || s.isSymlink symlinkPath then
    removeFile symlinkPath ("Failed to remove old symlink: " ++ String.ofList symlinkPath)
  symlink target symlinkPath ("Failed to create symlink: " ++ String.ofList symlinkPath)

/-- Both links of the command line tool. -/
def updateSymlinks (target : Path) : Install Unit := do
  updateSymlink binaryPath target
  updateSymlink antegenctlSymlinkPath target

/-- A version that is not there is downloaded. -/
def ensureDownloaded (m : Machine) (versionedPath : Path) (url name : Text) : Install Unit := do
  let s ← Action.read
  if !s.exists? versionedPath then do
    let temp ← downloadBinary m url name
    installBinaryTo temp versionedPath

/-! ## Commands of the tool -/

def getInstalledVersion (s : Disk) : Option Text :=
  (s.readLink binaryPath).bind fun target => stripPrefix "antegen-".toList (fileName target)

/-- The given version, or the latest. -/
def requestedVersion (latest : Except String Text) : Option Text → Install Text
  | some version => pure (normalizeVersion version)
  | none => Action.ofExcept latest

def update (m : Machine) (version : Option Text) : Install Unit := do
  let s ← Action.read
  let installed := (getInstalledVersion s).getD m.currentVersion
  let latest ← requestedVersion m.fetchLatestVersion version
  if version = none ∧ ¬ versionLessThan installed latest then pure ()
  else do
    let temp ← downloadBinary m (m.buildDownloadUrl latest) "antegen-update".toList
    installBinaryTo temp (versionedBinaryPath latest)
    let s ← Action.read
    if s.exists? binaryPath && !s.isSymlink binaryPath then
      rename binaryPath (versionedBinaryPath installed) "Failed to migrate existing binary"
    updateSymlinks (versionedBinaryPath latest)

/-- With the version that every caller gives. -/
def ensureBinaryInstalled (m : Machine) (version : Text) : Install Path := do
  createDirAll
  let version := normalizeVersion version
  ensureDownloaded m (versionedBinaryPath version) (m.buildDownloadUrl version)
    "antegen-update".toList
  updateSymlinks (versionedBinaryPath version)
  pure binaryPath

def install (m : Machine) (version : Option Text) : Install Unit := do
  let target ← requestedVersion m.fetchLatestVersion version
  let _ ← ensureBinaryInstalled m target

def useCliVersion (m : Machine) (version : Text) : Install Unit := do
  if version = "cargo".toList then do
    let s ← Action.read
    require (s.exists? cargoBin)
      ("No cargo-installed binary found at " ++ String.ofList cargoBin)
    updateSymlinks cargoBin
  else do
    let version := normalizeVersion version
    ensureDownloaded m (versionedBinaryPath version) (m.buildDownloadUrl version)
      "antegen-update".toList
    updateSymlinks (versionedBinaryPath version)

/-- Two files of the same length are taken for the same binary. -/
def Disk.sameLength (s : Disk) (p q : Path) : Prop :=
  ∃ bytes ∈ s.contents p, ∃ current ∈ s.contents q, bytes.length = current.length

instance (s : Disk) (p q : Path) : Decidable (s.sameLength p q) :=
  inferInstanceAs (Decidable (∃ bytes ∈ s.contents p, ∃ current ∈ s.contents q,
    bytes.length = current.length))

def importCurrentBinary (m : Machine) : Install Unit := do
  let currentExe ← Action.ofOption "Failed to resolve current exe" m.currentExe
  let versionedPath := versionedBinaryPath m.currentVersion
  createDirAll
  let s ← Action.read
  if ¬ s.sameLength versionedPath currentExe then do
    copy currentExe versionedPath "Failed to copy binary"
    setPermissions versionedPath
  updateSymlinks versionedPath

/-! ## Commands of the node -/

def readNodeVersion (s : Disk) : Option Text :=
  (s.nodeVersion.map trim).filter fun text => text ≠ []

/-- `fs::write` to the file that names the node. -/
def writeTracked (version : Text) : Install Unit := fun s =>
  match s.fault with
  | .none => (.ok (), { s.skip with nodeVersion := some version })
  | .fails => (.error ioError, s.skip)
  | .short n => (.error ioError, { s.skip with nodeVersion := some (version.take n) })

def writeNodeVersion (version : Text) : Install Unit := do
  createDirAll
  writeTracked version

def getInstalledNodeVersion (s : Disk) : Option Text :=
  (s.readLink nodeBinaryPath).bind fun target =>
    stripPrefix "antegen-node-".toList (fileName target)

def ensureNodeDownloaded (m : Machine) (version : Text) : Install Path := do
  let version := normalizeVersion version
  let versionedPath := versionedNodeBinaryPath version
  let s ← Action.read
  match m.devNode s with
  | some devNode => do
    createDirAll
    copy devNode versionedPath "Failed to copy dev node binary"
    setPermissions versionedPath
    pure versionedPath
  | none => do
    ensureDownloaded m versionedPath (m.buildNodeDownloadUrl version) "antegen-node-update".toList
    pure versionedPath

/-- The node that is linked and the node that is named are the same again. -/
def activateNode (version : Text) (versionedPath : Path) : Install Unit := do
  updateSymlink nodeBinaryPath versionedPath
  writeNodeVersion version

def downloadLatestNode (m : Machine) : Install Unit := do
  let latest ← Action.ofExcept m.fetchLatestNodeVersion
  require (isNodeVersionSupported latest) ("No supported node version available yet (minimum " ++
    String.ofList minNodeVersion ++ ")")
  let versionedPath ← ensureNodeDownloaded m latest
  activateNode latest versionedPath

def detectLocalNodeBuild (m : Machine) (s : Disk) : Option (Path × Text) := do
  let root ← m.workspaceRoot
  let words ← m.runVersion s (Machine.builtBinary root)
  let version ← words[1]?
  some (Machine.builtBinary root, normalizeVersion version)

/-- The built node as a version of its own. -/
def installLocalNode (builtBinary : Path) (version : Text) (error : String) : Install Unit := do
  createDirAll
  copy builtBinary (versionedNodeBinaryPath version) error
  setPermissions (versionedNodeBinaryPath version)

/-- `cargo build`, which puts its result into the workspace. -/
def cargoBuild (root : Path) (built : List UInt8) : Install Unit := fun s =>
  (.ok (), { s with
    files := Function.update s.files (Machine.builtBinary root) (some (.file built true)) })

def cargoBuildAndInstallNode (m : Machine) : Install Text := do
  let root ← Action.ofOption
    "Could not find workspace Cargo.toml. Run this command from within the antegen repository."
    m.workspaceRoot
  let built ← Action.ofOption "cargo build failed with exit code" m.build
  cargoBuild root built
  let words ← Action.ofOption "Failed to run built binary with --version" (m.versionWords built)
  let version ← Action.ofOption "Failed to parse version from built binary" words[1]?
  let version := normalizeVersion version
  installLocalNode (Machine.builtBinary root) version
    "Failed to copy built binary to install directory"
  pure version

/-! ## The service -/

def noNodeBinary (error : String) : String :=
  "No node binary available: " ++ error ++
    "\n  Run `antegenctl install <version>` when a release is available."

/-- `antegen-node` of the version that is asked for, of the tracked one, or of the latest. -/
def serviceVersion (m : Machine) : Option Text → Install Text
  | some version => pure version
  | none => do
    let s ← Action.read
    match readNodeVersion s with
    | some version => pure version
    | none => do
      (downloadLatestNode m).mapError noNodeBinary
      let s ← Action.read
      Action.ofOption "Failed to determine node version after download" (readNodeVersion s)

/-- The service is installed with the node of the version, which is named again. -/
def installServiceNode (m : Machine) (nodeVersion : Text) : Install Unit := do
  let binary ← ensureNodeDownloaded m nodeVersion
  let s ← Action.read
  let binary := (s.resolve binary).getD binary
  -- the directory of the logs
  createDirAll
  require m.serviceInstalls "Failed to install service"
  match stripPrefix "antegen-node-".toList (fileName binary) with
  | some version => (writeNodeVersion version).ignore
  | none => pure ()

def installService (m : Machine) (version : Option Text) : Install Unit := do
  let nodeVersion ← serviceVersion m version
  installServiceNode m nodeVersion

def start (m : Machine) (version : Option Text) : Install Unit := do
  require m.configured ioError
  installService m version
  require m.serviceStarts "Failed to start service"

/-- A service that is installed is started again with the node. -/
def restartService (m : Machine) (version : Text) : Install Unit :=
  if m.serviceInstalled then start m (some version) else pure ()

def unsupported (version : Text) : String :=
  "Node " ++ String.ofList version ++ " is not supported. Minimum version is " ++
    String.ofList minNodeVersion ++ "."

def updateNode (m : Machine) (version : Option Text) (isLocal : Bool) : Install Unit := do
  if isLocal then do
    let version ← cargoBuildAndInstallNode m
    activateNode version (versionedNodeBinaryPath version)
    restartService m version
  else do
    let s ← Action.read
    let installed := ((getInstalledNodeVersion s).or (readNodeVersion s)).getD "none".toList
    let latest ← requestedVersion m.fetchNodeUpdate version
    require (isNodeVersionSupported latest) (unsupported latest)
    if version = none ∧ installed ≠ "none".toList ∧ ¬ versionLessThan installed latest then pure ()
    else do
      let versionedPath ← ensureNodeDownloaded m latest
      activateNode latest versionedPath
      restartService m latest

def useNodeVersion (m : Machine) (version : Text) : Install Unit := do
  if version = "local".toList then do
    let s ← Action.read
    let (builtBinary, version) ← Action.ofOption ("No local build found. Run `cargo build -p " ++
      "antegen-client --release --features node` first.") (detectLocalNodeBuild m s)
    installLocalNode builtBinary version "Failed to copy local build to install directory"
    activateNode version (versionedNodeBinaryPath version)
    restartService m version
  else do
    let version := normalizeVersion version
    require (isNodeVersionSupported version) (unsupported version)
    let versionedPath ← ensureNodeDownloaded m version
    activateNode version versionedPath
    restartService m version

def installNodeVersion (m : Machine) (version : Option Text) (isLocal : Bool) : Install Unit := do
  if isLocal then do
    let _ ← cargoBuildAndInstallNode m
  else do
    let version ← Action.ofOption "version required (or use --local)" version
    let version := normalizeVersion version
    require (isNodeVersionSupported version) (unsupported version)
    ensureDownloaded m (versionedNodeBinaryPath version) (m.buildNodeDownloadUrl version)
      "antegen-node-update".toList

/-- The directories above a path, the nearest first, up to one that is called `target`. -/
def targetDirectory : List Text → Option (List Text)
  | [] => none
  | name :: above => if name = "target".toList then some (name :: above) else targetDirectory above

/-- Where a node that was built beside the running command may lie. -/
def importCandidates (currentExe : Path) : List Path :=
  [withFileName currentExe "antegen-node".toList,
    match targetDirectory (currentExe.splitOn '/').reverse.tail with
    | some names => List.intercalate ['/'] names.reverse ++ "/release/antegen-node".toList
    | none => "/nonexistent".toList]

def importNodeBinary (m : Machine) : Install Unit := do
  let currentExe ← Action.ofOption "Failed to resolve current exe" m.currentExe
  let s ← Action.read
  match (importCandidates currentExe).find? s.exists? with
  | none => pure ()
  | some nodeBinary => do
    let words ← Action.ofOption "Failed to run antegen-node --version" (m.runVersion s nodeBinary)
    let version ← Action.ofOption "Could not parse node version" words.getLast?
    let version := normalizeVersion version
    installLocalNode nodeBinary version "Failed to copy node binary"
    activateNode version (versionedNodeBinaryPath version)

/-- `antegen verify`, before it checks the configuration. -/
def verify (m : Machine) : Install Unit := do
  importCurrentBinary m
  importNodeBinary m

/-! ## Running the node -/

def findNodeBinary (m : Machine) (s : Disk) : Option Path :=
  -- a command that was built itself looks for the same file once more
  let beside := m.currentExe.map fun exe => withFileName exe "antegen-node".toList
  (beside.toList ++ [nodeBinaryPath]).find? s.exists?

/-- The binary of the node, which is downloaded if there is none. -/
def obtainNodeBinary (m : Machine) : Install Path := do
  let s ← Action.read
  match findNodeBinary m s with
  | some path => pure path
  | none => do
    (downloadLatestNode m).mapError noNodeBinary
    let s ← Action.read
    Action.ofOption ("antegen-node binary not found.\n" ++
      "Install it with: antegenctl install <version>\n" ++
      "Or build it with: cargo build -p antegen-client --features node") (findNodeBinary m s)

/-- `exec`, which does not return where it succeeds. -/
def exec (path : Path) : Install Unit := fun s =>
  match s.fault, s.binary path with
  | .none, some (_, true) => (.ok (), s.skip)
  | _, _ => (.error "Failed to exec antegen-node", s.skip)

/-- `execute`, up to the start of the node. -/
def run (m : Machine) : Install Unit := do
  let path ← obtainNodeBinary m
  exec path

inductive Command
  | update (version : Option Text)
  | install (version : Option Text)
  | useCli (version : Text)
  | verify
  | updateNode (version : Option Text) (isLocal : Bool)
  | useNode (version : Text)
  | installNode (version : Option Text) (isLocal : Bool)
  | start (version : Option Text)
  | run

def Command.perform (m : Machine) : Command → Install Unit
  | update version => Cli.update m version
  | install version => Cli.install m version
  | useCli version => useCliVersion m version
  | verify => Cli.verify m
  | updateNode version isLocal => Cli.updateNode m version isLocal
  | useNode version => useNodeVersion m version
  | installNode version isLocal => installNodeVersion m version isLocal
  | start version => Cli.start m version
  | run => Cli.run m

end Antegen.Cli
