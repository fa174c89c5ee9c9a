import Antegen.AccountCache
import Antegen.Messages

/-!
# Reconnection of a datasource

A source pushes every account it receives through the cache and forwards it to staging
if the cache took it. On a reconnection it fetches all threads and sends them to itself
as updates under slot 0. They pass the same filter as live updates, so an account that
a live update has cached under its real slot keeps what it had before the connection
was lost.
-/
namespace Antegen.Client

/-- What `getProgramAccounts` returns of an account: the data and its encoding. -/
structure UiAccount where
  data : String
  encoding : String
  deriving DecidableEq, Repr

/-- The node of a datasource, and the decoding of account data. -/
structure SourceNode where
  getProgramAccounts : Except Unit (List (Pubkey × UiAccount))
  decodeAccountData : UiAccount → Option (List UInt8)

/-- Why a source stops. -/
inductive SourceError
  | sendToStaging
  | sendClockToStaging
  | maxRestarts (which : String)
  deriving DecidableEq, Repr

def maxSubscriptionRestarts : ℕ := 3

structure RpcSource (e : CacheEnv) where
  cache : AccountCache e
  own : Mailbox RpcSourceMessage
  staging : Mailbox StagingMessage
  programRestartCount : ℕ
  clockRestartCount : ℕ

namespace SourceNode

variable (node : SourceNode)

/-- The update that a fetched account becomes, unless its data cannot be decoded. -/
def backfilled (account : Pubkey × UiAccount) : Option AccountUpdate :=
  (node.decodeAccountData account.2).map fun data => ⟨account.1, data, 0⟩

/-- The loop over the fetched accounts; it ends at the first send that fails. -/
def sendBackfill :
    Mailbox RpcSourceMessage → List (Pubkey × UiAccount) → Mailbox RpcSourceMessage
  | own, [] => own
  | own, account :: accounts =>
    match node.backfilled account with
    | none => sendBackfill own accounts
    | some update =>
      match own.send (.updateReceived update) with
      | some own => sendBackfill own accounts
      | none => own

/-- `perform_backfill`; a failed request leaves the mailbox as it is. -/
def performBackfill (own : Mailbox RpcSourceMessage) : Mailbox RpcSourceMessage :=
  match node.getProgramAccounts with
  | .ok accounts => node.sendBackfill own accounts
  | .error _ => own

end SourceNode

namespace RpcSource

variable {e : CacheEnv} (node : SourceNode)

def handle (s : RpcSource e) : RpcSourceMessage → Except SourceError (RpcSource e)
  | .updateReceived update =>
    let (cache, isNew) := s.cache.putIfNewer update.pubkey update.data update.slot
    if isNew then
      match s.staging.send (.accountUpdate update) with
      | some staging => .ok { s with cache := cache, staging := staging }
      | none => .error .sendToStaging
    else .ok { s with cache := cache }
  | .clockReceived clock =>
    match s.staging.send (.clockTick clock) with
    | some staging => .ok { s with staging := staging }
    | none => .error .sendClockToStaging
  | .reconnected => .ok { s with own := node.performBackfill s.own }
  | .subscriptionDied which =>
    if which = "program" then
      if maxSubscriptionRestarts < s.programRestartCount + 1 then .error (.maxRestarts which)
      else .ok { s with programRestartCount := s.programRestartCount + 1 }
    else if which = "clock" then
      if maxSubscriptionRestarts < s.clockRestartCount + 1 then .error (.maxRestarts which)
      else .ok { s with clockRestartCount := s.clockRestartCount + 1 }
    else .ok s

/-- The messages of the mailbox, one after another. -/
def handleAll (s : RpcSource e) (messages : List RpcSourceMessage) :
    Except SourceError (RpcSource e) :=
  messages.foldlM (handle node) { s with own := { s.own with messages := [] } }

/-- A reconnection and all messages that it leaves in the mailbox. -/
def reconnect (s : RpcSource e) : Except SourceError (RpcSource e) := do
  let s ← s.handle node .reconnected
  s.handleAll node s.own.messages

end RpcSource

/-! ## What a reconnection brings into the cache -/

@[simp] theorem Mailbox.send_running {α : Type} {m : Mailbox α} (h : m.running = true)
    (message : α) :
    m.send message = some { m with messages := m.messages ++ [message] } :=
  if_pos h

theorem SourceNode.sendBackfill_messages (node : SourceNode) {own : Mailbox RpcSourceMessage}
    (hrunning : own.running = true) (accounts : List (Pubkey × UiAccount)) :
    node.sendBackfill own accounts = { own with
      messages := own.messages ++ (accounts.filterMap node.backfilled).map .updateReceived } := by
  induction accounts generalizing own with
  | nil => simp [sendBackfill]
  | cons account accounts ih =>
    cases hupdate : node.backfilled account with
    | none =>
      simp only [sendBackfill, hupdate, List.filterMap_cons]
      exact ih hrunning
    | some update =>
      simp only [sendBackfill, hupdate, Mailbox.send_running hrunning, List.filterMap_cons,
        List.map_cons]
      rw [ih (by exact hrunning)]
      simp

/-- The updates are for the fetched accounts, in their order. -/
theorem SourceNode.backfilled_keys (node : SourceNode) (accounts : List (Pubkey × UiAccount)) :
    ((accounts.filterMap node.backfilled).map AccountUpdate.pubkey).Sublist
      (accounts.map Prod.fst) := by
  induction accounts with
  | nil => exact List.Sublist.slnil
  | cons account accounts ih =>
    rw [List.filterMap_cons, List.map_cons]
    cases hupdate : node.backfilled account with
    | none => exact ih.cons _
    | some update =>
      obtain ⟨data, -, rfl⟩ := Option.map_eq_some_iff.mp hupdate
      exact ih.cons_cons _

namespace RpcSource

variable {e : CacheEnv} (node : SourceNode)

/-- One update: what the cache holds afterwards, and what is forwarded. -/
theorem handle_updateReceived {s : RpcSource e} (hrunning : s.staging.running = true)
    (update : AccountUpdate) : s.handle node (.updateReceived update) = .ok { s with
      cache := (s.cache.putIfNewer update.pubkey update.data update.slot).1
      staging := { s.staging with messages := s.staging.messages ++
        if (s.cache.putIfNewer update.pubkey update.data update.slot).2
        then [.accountUpdate update] else [] } } := by
  simp only [handle, Mailbox.send_running hrunning]
  split_ifs with hnew
  · rfl
  · simp

/-- The run lemma: updates for different accounts do not see each other. -/
theorem handle_updates {updates : List AccountUpdate}
    (hkeys : (updates.map AccountUpdate.pubkey).Nodup) {s : RpcSource e}
    (hrunning : s.staging.running = true) :
    ∃ s' new, (updates.map RpcSourceMessage.updateReceived).foldlM (handle node) s = .ok s' ∧
      s'.staging.messages = s.staging.messages ++ new ∧
      (∀ k, k ∉ updates.map AccountUpdate.pubkey → s'.cache k = s.cache k) ∧
      ∀ u ∈ updates,
        s'.cache u.pubkey = (s.cache.putIfNewer u.pubkey u.data u.slot).1 u.pubkey ∧
        ((s.cache.putIfNewer u.pubkey u.data u.slot).2 = true →
          StagingMessage.accountUpdate u ∈ new) := by
  induction updates generalizing s with
  | nil => exact ⟨s, [], rfl, by simp, fun _ _ => rfl, by simp⟩
  | cons u updates ih =>
    rw [List.map_cons, List.nodup_cons] at hkeys
    obtain ⟨hfresh, hkeys⟩ := hkeys
    simp only [List.map_cons, List.foldlM_cons, handle_updateReceived node hrunning]
    obtain ⟨s', new, hrun, hstaging, hframe, hupdates⟩ := ih hkeys (s := { s with
      cache := (s.cache.putIfNewer u.pubkey u.data u.slot).1
      staging := { s.staging with messages := s.staging.messages ++
        if (s.cache.putIfNewer u.pubkey u.data u.slot).2
        then [.accountUpdate u] else [] } }) hrunning
    refine ⟨s', (if (s.cache.putIfNewer u.pubkey u.data u.slot).2
      then [.accountUpdate u] else []) ++ new, hrun, ?_, ?_, ?_⟩
    · rw [hstaging, List.append_assoc]
    · intro k hk
      rw [List.mem_cons, not_or] at hk
      rw [hframe k hk.2]
      exact AccountCache.putIfNewer_of_ne _ hk.1 _ _
    · intro u' hu'
      rcases List.mem_cons.mp hu' with rfl | htail
      · refine ⟨hframe _ hfresh, fun hnew => ?_⟩
        rw [if_pos hnew]
        simp
      · have hne : u'.pubkey ≠ u.pubkey := by
          intro heq
          rw [← heq] at hfresh
          exact hfresh (List.mem_map_of_mem htail)
        obtain ⟨hcached, hforwarded⟩ := hupdates u' htail
        obtain ⟨hcache, hresult⟩ := AccountCache.putIfNewer_congr
          (AccountCache.putIfNewer_of_ne s.cache hne u.data u.slot) u'.data u'.slot
        rw [hcache] at hcached
        rw [hresult] at hforwarded
        exact ⟨hcached, fun hnew => List.mem_append_right _ (hforwarded hnew)⟩

/-- The actors that a reconnection needs are running, and no other message is waiting. -/
def Quiet (s : RpcSource e) : Prop :=
  s.own.running = true ∧ s.own.messages = [] ∧ s.staging.running = true

/-- The fetched data ends up in the cache, and staging hears of every change. -/
def CatchesUp (node : SourceNode) (s : RpcSource e) (accounts : List (Pubkey × UiAccount)) : Prop :=
  ∃ s' new, s.reconnect node = .ok s' ∧ s'.staging.messages = s.staging.messages ++ new ∧
    ∀ u ∈ accounts.filterMap node.backfilled, s'.cache.dataAt u.pubkey = some u.data ∧
      (s.cache.dataAt u.pubkey ≠ some u.data → StagingMessage.accountUpdate u ∈ new)

/-- The condition on one account: it is not cached, or with the fetched data, or it has been
cached under slot 0 and the hash tells the two apart. -/
def GetsThrough (cache : AccountCache e) (u : AccountUpdate) : Prop :=
  ∀ c, cache u.pubkey = some c →
    c.data = u.data ∨ (c.slot = 0 ∧ c.hash ≠ e.seahash u.data)

theorem getsThrough_iff (cache : AccountCache e) {u : AccountUpdate} (hslot : u.slot = 0) :
    GetsThrough cache u ↔
      (cache.putIfNewer u.pubkey u.data u.slot).1.dataAt u.pubkey = some u.data := by
  unfold GetsThrough
  rcases AccountCache.putIfNewer_cases cache u.pubkey u.data u.slot with
    ⟨c, hkey, hdrop, heq⟩ | ⟨hnew, heq⟩
  · rw [heq]
    simp only [AccountCache.dataAt, hkey, Option.map_some, Option.some.injEq, forall_eq']
    constructor
    · rintro (hdata | ⟨hzero, hhash⟩)
      · exact hdata
      · rcases hdrop with hsame | hlow
        · exact absurd hsame hhash
        · omega
    · intro hdata
      exact Or.inl hdata
  · rw [heq]
    refine iff_of_true (fun c hkey => ?_) (by simp [AccountCache.dataAt])
    obtain ⟨hhash, hle⟩ := hnew c hkey
    exact Or.inr ⟨by omega, hhash⟩

/-- Data that gets through and was not there is new. -/
theorem GetsThrough.isNew {cache : AccountCache e} {u : AccountUpdate} (hslot : u.slot = 0)
    (h : GetsThrough cache u) (hchanged : cache.dataAt u.pubkey ≠ some u.data) :
    (cache.putIfNewer u.pubkey u.data u.slot).2 = true := by
  rcases AccountCache.putIfNewer_cases cache u.pubkey u.data u.slot with
    ⟨c, hkey, hdrop, -⟩ | ⟨-, heq⟩
  · have hdata : c.data ≠ u.data := by
      intro heq
      rw [← heq, AccountCache.dataAt, hkey] at hchanged
      exact hchanged rfl
    obtain ⟨hzero, hhash⟩ := (h c hkey).resolve_left hdata
    rcases hdrop with hsame | hlow
    · exact absurd hsame hhash
    · omega
  · rw [heq]

/-- A reconnection catches up on the fetched threads if and only if each of them is not
cached, or with the fetched data, or under slot 0. -/
theorem reconnect_catches_up_iff {node : SourceNode} {s : RpcSource e} (hquiet : s.Quiet)
    {accounts : List (Pubkey × UiAccount)} (hfetched : node.getProgramAccounts = .ok accounts)
    (hkeys : (accounts.map Prod.fst).Nodup) :
    CatchesUp node s accounts ↔
      ∀ u ∈ accounts.filterMap node.backfilled, GetsThrough s.cache u := by
  obtain ⟨hown, hempty, hstaging⟩ := hquiet
  have hslots : ∀ u ∈ accounts.filterMap node.backfilled, u.slot = 0 := by
    intro u hu
    obtain ⟨account, -, hupdate⟩ := List.mem_filterMap.mp hu
    obtain ⟨data, -, rfl⟩ := Option.map_eq_some_iff.mp hupdate
    rfl
  have hnodup : ((accounts.filterMap node.backfilled).map AccountUpdate.pubkey).Nodup :=
    hkeys.sublist (node.backfilled_keys accounts)
  have hreconnect : s.reconnect node =
      ((accounts.filterMap node.backfilled).map RpcSourceMessage.updateReceived).foldlM
        (handle node) { s with own := { s.own with messages := [] } } := by
    simp only [reconnect, handle, SourceNode.performBackfill, hfetched,
      node.sendBackfill_messages hown, hempty, List.nil_append]
    rfl
  obtain ⟨s', new, hrun, hmessages, -, hupdates⟩ :=
    handle_updates node hnodup (s := { s with own := { s.own with messages := [] } })
      hstaging
  rw [← hreconnect] at hrun
  have hcached : ∀ u ∈ accounts.filterMap node.backfilled,
      s'.cache.dataAt u.pubkey =
        (s.cache.putIfNewer u.pubkey u.data u.slot).1.dataAt u.pubkey := by
    intro u hu
    rw [AccountCache.dataAt, (hupdates u hu).1]
    rfl
  constructor
  · rintro ⟨s₁, new₁, hrun₁, -, hall⟩ u hu
    rw [hrun] at hrun₁
    obtain rfl := Except.ok.inj hrun₁
    rw [getsThrough_iff s.cache (hslots u hu), ← hcached u hu]
    exact (hall u hu).1
  · intro hall
    refine ⟨s', new, hrun, hmessages, fun u hu => ⟨?_, fun hchanged => ?_⟩⟩
    · rw [hcached u hu]
      exact (getsThrough_iff s.cache (hslots u hu)).mp (hall u hu)
    · exact (hupdates u hu).2 ((hall u hu).isNew (hslots u hu) hchanged)

/-! ## One thread before and after a disconnection -/

/-- Thread 1 has been cached with its next moment 10 by an update for the slot. -/
def sampleSource (slot : ℕ) : RpcSource AccountCache.threadEnv where
  cache := (AccountCache.putIfNewer (fun _ => none) 1 [0, 0, 10, 0] slot).1
  own := ⟨true, []⟩
  staging := ⟨true, []⟩
  programRestartCount := 0
  clockRestartCount := 0

/-- The node has thread 1 after one more execution. -/
def sampleNode : SourceNode where
  getProgramAccounts := .ok [(1, ⟨"AAEUAA==", "base64"⟩)]
  decodeAccountData account := if account = ⟨"AAEUAA==", "base64"⟩ then some [0, 1, 20, 0] else none

/-- After a live update for slot 9 the fetched data is dropped as stale. -/
theorem reconnect_misses_update :
    (sampleSource 9).Quiet ∧ sampleNode.getProgramAccounts = .ok [(1, ⟨"AAEUAA==", "base64"⟩)] ∧
      ¬ CatchesUp sampleNode (sampleSource 9) [(1, ⟨"AAEUAA==", "base64"⟩)] := by
  refine ⟨⟨rfl, rfl, rfl⟩, rfl, ?_⟩
  rintro ⟨s', new, hrun, -, hall⟩
  have hkept : ((sampleSource 9).reconnect sampleNode).map (fun s => s.cache.dataAt 1) =
      .ok (some [0, 0, 10, 0]) := by
    decide +kernel
  rw [hrun] at hkept
  have hfetched : s'.cache.dataAt 1 = some [0, 1, 20, 0] :=
    (hall ⟨1, [0, 1, 20, 0], 0⟩ (by decide)).1
  have hold : s'.cache.dataAt 1 = some [0, 0, 10, 0] := Except.ok.inj hkept
  rw [hfetched] at hold
  exact absurd hold (by decide)

/-- An entry of an earlier backfill is replaced. -/
theorem backfill_replaces_backfill :
    CatchesUp sampleNode (sampleSource 0) [(1, ⟨"AAEUAA==", "base64"⟩)] := by
  refine (reconnect_catches_up_iff ⟨rfl, rfl, rfl⟩ rfl (by decide)).mpr ?_
  intro u hu c hc
  have hu' : u = ⟨1, [0, 1, 20, 0], 0⟩ := by
    have hlist : [(1, (⟨"AAEUAA==", "base64"⟩ : UiAccount))].filterMap sampleNode.backfilled =
        [⟨1, [0, 1, 20, 0], 0⟩] := by
      decide
    rw [hlist] at hu
    exact List.mem_singleton.mp hu
  subst hu'
  have hentry : c = ⟨[0, 0, 10, 0], 0, AccountCache.threadEnv.seahash [0, 0, 10, 0],
      AccountCache.triggerTypeOf AccountCache.threadEnv [0, 0, 10, 0], rfl⟩ := by
    have hsome : (sampleSource 0).cache 1 = some c := hc
    simp only [sampleSource, AccountCache.putIfNewer, AccountCache.get,
      AccountCache.put_self] at hsome
    exact (Option.some.inj hsome).symm
  rw [hentry]
  refine Or.inr ⟨rfl, fun hsame => ?_⟩
  exact absurd (AccountCache.sampleCacheEnv_injective _ hsame) (by decide)

end RpcSource

end Antegen.Client
