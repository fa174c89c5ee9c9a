import Antegen.Base64
import Antegen.StagingActor

/-!
# The two ways to fetch a thread

The node is asked for an account in one way only, compressed, and it says in its answer how
the data is encoded. The executor decodes by that tag. The cache decodes base64 and does not
look at the tag. What it cannot read counts as a thread that is gone, and a refetch by the
staging actor stops to track it. The compression is a parameter.
-/
namespace Antegen.Client

open Staging

/-- The data of an account as the node sends it, with the name of its encoding. -/
structure SafeUiAccount where
  data : String
  encoding : String
  deriving DecidableEq, Repr

inductive DecodeError
  | base64
  | decompression
  | unsupportedEncoding (encoding : String)
  deriving DecidableEq, Repr

/-- `get_account` through the pool, and the decompression of a zstd stream. -/
structure Node where
  getAccount : Pubkey → Except Unit (Option SafeUiAccount)
  decompress : List UInt8 → Option (List UInt8)

def decodeAccountData (decompress : List UInt8 → Option (List UInt8)) (data encoding : String) :
    Except DecodeError (List UInt8) :=
  match Base64.decode data with
  | none => .error .base64
  | some decoded =>
    if encoding = "base64" then .ok decoded
    else if encoding = "base64+zstd" then
      match decompress decoded with
      | none => .error .decompression
      | some decompressed => .ok decompressed
    else .error (.unsupportedEncoding encoding)

/-- Why the executor could not fetch a thread. -/
inductive FetchThreadError
  | rpc
  | notFound
  | decode (error : DecodeError)
  | undecodable
  deriving DecidableEq, Repr

/-- `ExecutorLogic::fetch_thread`, past the cache. -/
def fetchThread (e : CacheEnv) (node : Node) (threadPubkey : Pubkey) :
    Except FetchThreadError Thread :=
  match node.getAccount threadPubkey with
  | .error _ => .error .rpc
  | .ok none => .error .notFound
  | .ok (some account) =>
    match decodeAccountData node.decompress account.data account.encoding with
    | .error error => .error (.decode error)
    | .ok data =>
      match e.tryDeserialize data with
      | none => .error .undecodable
      | some t => .ok t

/-- What the cache sees of the node: the data without its tag. -/
def Node.rpc (node : Node) : AccountCache.Rpc where
  getAccount key := (node.getAccount key).map fun account => account.map SafeUiAccount.data
  decodeBase64 := Base64.decode

/-! ## Answers of the node -/

/-- The encodings that the pool may receive. -/
inductive Encoding
  | base64
  | base64Zstd
  deriving DecidableEq, Repr

/-- The answer for an account with the given bytes. -/
def Encoding.answer (compress : List UInt8 → List UInt8) (bytes : List UInt8) :
    Encoding → SafeUiAccount
  | .base64 => ⟨Base64.encode bytes, "base64"⟩
  | .base64Zstd => ⟨Base64.encode (compress bytes), "base64+zstd"⟩

/-- Decompression inverts compression, and a compressed frame is no thread. -/
structure Compresses (e : CacheEnv) (node : Node) (compress : List UInt8 → List UInt8) : Prop where
  inverts : ∀ bytes, node.decompress (compress bytes) = some bytes
  frame : ∀ bytes, e.tryDeserialize (compress bytes) = none

variable {e : CacheEnv} {node : Node} {compress : List UInt8 → List UInt8}

/-- The executor reads both encodings. -/
theorem decodeAccountData_answer (hc : Compresses e node compress) (bytes : List UInt8)
    (encoding : Encoding) :
    decodeAccountData node.decompress (encoding.answer compress bytes).data
      (encoding.answer compress bytes).encoding = .ok bytes := by
  cases encoding with
  | base64 => simp [decodeAccountData, Encoding.answer, Base64.decode_encode]
  | base64Zstd => simp [decodeAccountData, Encoding.answer, Base64.decode_encode, hc.inverts]

theorem fetchThread_answer (hc : Compresses e node compress) {bytes : List UInt8} {t : Thread}
    (ht : e.tryDeserialize bytes = some t) {k : Pubkey} {encoding : Encoding}
    (hnode : node.getAccount k = .ok (some (encoding.answer compress bytes))) :
    fetchThread e node k = .ok t := by
  simp only [fetchThread, hnode, decodeAccountData_answer hc, ht]

theorem getThreadOrFetch_base64 {bytes : List UInt8} {t : Thread}
    (ht : e.tryDeserialize bytes = some t) {k : Pubkey}
    (hnode : node.getAccount k = .ok (some (Encoding.base64.answer compress bytes)))
    {cache : AccountCache e} (hmiss : cache k = none) :
    cache.getThreadOrFetch node.rpc k = (.ok t, cache.put k bytes 0 (.fromThread t)) := by
  simp [AccountCache.getThreadOrFetch, AccountCache.get, hmiss, Node.rpc, hnode, Except.map,
    Encoding.answer, Base64.decode_encode, ht]

/-- The cache takes the compressed frame for the account. -/
theorem getThreadOrFetch_zstd (hc : Compresses e node compress) {bytes : List UInt8} {k : Pubkey}
    (hnode : node.getAccount k = .ok (some (Encoding.base64Zstd.answer compress bytes)))
    {cache : AccountCache e} (hmiss : cache k = none) :
    cache.getThreadOrFetch node.rpc k = (.error .undecodableAccount, cache) := by
  simp [AccountCache.getThreadOrFetch, AccountCache.get, hmiss, Node.rpc, hnode, Except.map,
    Encoding.answer, Base64.decode_encode, hc.frame]

/-- On a cache miss both paths return the same thread, the cache has the account's bytes, and
a refetch by the staging actor does not untrack the thread. -/
structure FetchesAlike {Q : Type} [MinHeap Q ScheduledThread.triggerValue] (node : Node)
    (bytes : List UInt8) (k : Pubkey) (a : StagingActor e Q) : Prop where
  returned : ∃ t, fetchThread e node k = .ok t ∧ (a.cache.getThreadOrFetch node.rpc k).1 = .ok t
  cached : (a.cache.getThreadOrFetch node.rpc k).2.dataAt k = some bytes
  kept : Effect.untracks k ∉ (a.refetch node.rpc k).2

/-- The two ways agree on an answer if and only if it is not compressed. The executor reads
every answer. -/
theorem fetch_paths_agree_iff {Q : Type} [MinHeap Q ScheduledThread.triggerValue]
    (hc : Compresses e node compress) {bytes : List UInt8} {t : Thread}
    (ht : e.tryDeserialize bytes = some t) {k : Pubkey} {encoding : Encoding}
    (hnode : node.getAccount k = .ok (some (encoding.answer compress bytes)))
    (a : StagingActor e Q) (hmiss : a.cache k = none) :
    fetchThread e node k = .ok t ∧
      (FetchesAlike node bytes k a ↔ (encoding.answer compress bytes).encoding = "base64") ∧
      (Effect.untracks k ∈ (a.refetch node.rpc k).2 ↔
        (encoding.answer compress bytes).encoding ≠ "base64") := by
  refine ⟨fetchThread_answer hc ht hnode, ?_⟩
  cases encoding with
  | base64 =>
    have hfetch := getThreadOrFetch_base64 ht hnode hmiss
    have hkept : (a.refetch node.rpc k).2 = [.tracks k t] := by
      unfold StagingActor.refetch
      rw [hfetch]
    refine ⟨⟨fun _ => rfl, fun _ => ⟨⟨t, fetchThread_answer hc ht hnode, by rw [hfetch]⟩, ?_, ?_⟩⟩,
      ?_⟩
    · rw [hfetch]
      simp [AccountCache.dataAt]
    · rw [hkept]
      simp
    · rw [hkept]
      simp [Encoding.answer]
  | base64Zstd =>
    have hfetch := getThreadOrFetch_zstd hc hnode hmiss
    have hlost : (a.refetch node.rpc k).2 = [.untracks k] := by
      unfold StagingActor.refetch
      rw [hfetch]
    refine ⟨⟨fun halike => ?_, fun htag => ?_⟩, ?_⟩
    · have hkept := halike.kept
      rw [hlost] at hkept
      simp at hkept
    · simp [Encoding.answer] at htag
    · rw [hlost]
      simp [Encoding.answer]

/-! ## A node that sends uncompressed blocks -/

/-- A zstd frame with a raw block for each byte and an empty last one. -/
def rawFrame (bytes : List UInt8) : List UInt8 :=
  [0x28, 0xb5, 0x2f, 0xfd, 0, 0] ++ bytes.flatMap (fun b => [8, 0, 0, b]) ++ [1, 0, 0]

def rawBlocks : List UInt8 → Option (List UInt8)
  | [1, 0, 0] => some []
  | 8 :: 0 :: 0 :: b :: rest => (rawBlocks rest).map (b :: ·)
  | _ => none

/-- Decompression of such frames. -/
def unframe : List UInt8 → Option (List UInt8)
  | 0x28 :: 0xb5 :: 0x2f :: 0xfd :: 0 :: 0 :: blocks => rawBlocks blocks
  | _ => none

theorem unframe_rawFrame (bytes : List UInt8) : unframe (rawFrame bytes) = some bytes := by
  have hblocks : rawBlocks (bytes.flatMap (fun b => [8, 0, 0, b]) ++ [1, 0, 0]) = some bytes := by
    induction bytes with
    | nil => rfl
    | cons b rest ih =>
      simp only [List.flatMap_cons, List.cons_append, List.nil_append, rawBlocks, ih,
        Option.map_some]
  simpa [unframe, rawFrame] using hblocks

/-- The node has thread 1 in four bytes at every address. -/
def sampleNode (encoding : Encoding) : Node where
  getAccount _ := .ok (some (encoding.answer rawFrame [0, 3, 60, 0]))
  decompress := unframe

theorem sampleNode_compresses (encoding : Encoding) :
    Compresses AccountCache.threadEnv (sampleNode encoding) rawFrame := by
  refine ⟨unframe_rawFrame, fun bytes => ?_⟩
  simp [rawFrame, AccountCache.threadEnv, AccountCache.sampleCacheEnv, AccountCache.decodeSample]

/-- An actor that tracks thread 1, whose entry has left the cache. -/
def evicted (t : Thread) :
    StagingActor AccountCache.threadEnv (SortedQueue ScheduledThread.triggerValue) :=
  let a := StagingActor.start fun _ => none
  { a with state := a.state.track 1 t, evictions := [1] }

theorem evicted_tracked (t : Thread) :
    (evicted t).state.trackedThreads 1 = some (.ofThread t) := by
  unfold evicted StagingState.track
  simp only
  split_ifs
  · simp
  · unfold StagingState.scheduleThread
    split <;> simp

theorem sampleNode_answers (encoding : Encoding) : (sampleNode encoding).getAccount 1 =
    .ok (some (encoding.answer rawFrame [0, 3, 60, 0])) :=
  rfl

/-- The requested encoding: the executor reads the thread, and the staging actor gives it up. -/
theorem compressed_answer_untracks :
    ∃ t, AccountCache.threadEnv.tryDeserialize [0, 3, 60, 0] = some t ∧
      Compresses AccountCache.threadEnv (sampleNode .base64Zstd) rawFrame ∧
      fetchThread AccountCache.threadEnv (sampleNode .base64Zstd) 1 = .ok t ∧
      (evicted t).state.trackedThreads 1 = some (.ofThread t) ∧
      ((evicted t).refetch (sampleNode .base64Zstd).rpc 1).1.state.trackedThreads 1 = none ∧
      ¬ FetchesAlike (sampleNode .base64Zstd) [0, 3, 60, 0] 1 (evicted t) := by
  obtain ⟨t, ht⟩ : ∃ t, AccountCache.threadEnv.tryDeserialize [0, 3, 60, 0] = some t := ⟨_, rfl⟩
  have hc := sampleNode_compresses .base64Zstd
  have hmiss : (evicted t).cache 1 = none := rfl
  have hfetch := getThreadOrFetch_zstd hc (sampleNode_answers .base64Zstd) hmiss
  refine ⟨t, ht, hc, fetchThread_answer hc ht (sampleNode_answers .base64Zstd), evicted_tracked t,
    ?_, fun halike => ?_⟩
  · unfold StagingActor.refetch
    rw [hfetch]
    simp [StagingState.untrack]
  · obtain ⟨t', -, ht'⟩ := halike.returned
    rw [hfetch] at ht'
    exact absurd ht' (by simp)

theorem plain_answer_is_kept :
    ∃ t, AccountCache.threadEnv.tryDeserialize [0, 3, 60, 0] = some t ∧
      FetchesAlike (sampleNode .base64) [0, 3, 60, 0] 1 (evicted t) := by
  obtain ⟨t, ht⟩ : ∃ t, AccountCache.threadEnv.tryDeserialize [0, 3, 60, 0] = some t := ⟨_, rfl⟩
  have hagree := fetch_paths_agree_iff (sampleNode_compresses .base64) ht
    (sampleNode_answers .base64) (evicted t) rfl
  exact ⟨t, ht, hagree.2.1.mpr rfl⟩

end Antegen.Client
