import Antegen.NewestRegister
import Antegen.ThreadExec

/-!
# The account cache of the client

Every datasource writes the accounts it sees into one cache, and everything else reads
threads from there. An entry remembers the slot its data came from and a hash of it.
`put_if_newer` is both the filter for stale data and the deduplication in front of the
staging actor: identical data is dropped before the slots are compared. The hash and
the deserialization of a thread are parameters; removal by expiry is a separate step.
-/
namespace Antegen.Client

/-- What the expiry of an entry depends on. -/
inductive CacheTriggerType
  | time (nextTimestamp : ℤ)
  | block
  | account
  | unknown
  deriving DecidableEq, Repr

def CacheTriggerType.fromThread (t : Thread) : CacheTriggerType :=
  let timed : CacheTriggerType := match t.schedule with
    | .timed _ next => .time next
    | _ => .unknown
  match t.trigger with
  | .timestamp _ _ => timed
  | .cron _ _ _ => timed
  | .interval _ _ _ => timed
  | .immediate _ => timed
  | .slot _ => .block
  | .epoch _ => .block
  | .account _ _ _ => .account

structure CacheEnv where
  seahash : List UInt8 → ℕ
  tryDeserialize : List UInt8 → Option Thread

/-- An entry; its hash is that of its data. -/
structure CachedAccount (e : CacheEnv) where
  data : List UInt8
  slot : ℕ
  hash : ℕ
  triggerType : CacheTriggerType
  hash_eq : hash = e.seahash data

structure ThreadExpiry where
  gracePeriod : ℕ
  evictionBuffer : ℕ

/-- Seconds until an entry expires, if it ever does. -/
def ThreadExpiry.calculateTtl (x : ThreadExpiry) (now : ℤ) : CacheTriggerType → Option ℕ
  | .time nextTimestamp =>
    if nextTimestamp = 0 ∨ nextTimestamp = 2 ^ 63 - 1 then none
    else
      let expireAt := saturate
        (saturate (nextTimestamp + asI64 x.gracePeriod) + asI64 x.evictionBuffer)
      if now < expireAt then some (min (saturate (expireAt - now)).toNat 86400)
      else some (max (x.gracePeriod + x.evictionBuffer) 30)
  | _ => none

abbrev AccountCache (e : CacheEnv) := Pubkey → Option (CachedAccount e)

namespace AccountCache

variable {e : CacheEnv}

def get (cache : AccountCache e) (key : Pubkey) : Option (CachedAccount e) := cache key

def put (cache : AccountCache e) (key : Pubkey) (data : List UInt8) (slot : ℕ)
    (triggerType : CacheTriggerType) : AccountCache e :=
  Function.update cache key (some ⟨data, slot, e.seahash data, triggerType, rfl⟩)

/-- The trigger type of any data; data that is no thread has none. -/
def triggerTypeOf (e : CacheEnv) (data : List UInt8) : CacheTriggerType :=
  match e.tryDeserialize data with
  | some t => .fromThread t
  | none => .unknown

/-- Whether the data is new, and the cache with it if it is. -/
def putIfNewer (cache : AccountCache e) (key : Pubkey) (data : List UInt8) (slot : ℕ) :
    AccountCache e × Bool :=
  match cache.get key with
  | some existing =>
    if existing.hash = e.seahash data then (cache, false)
    else if slot < existing.slot then (cache, false)
    else (cache.put key data slot (triggerTypeOf e data), true)
  | none => (cache.put key data slot (triggerTypeOf e data), true)

/-- Why a thread could not be read. -/
inductive FetchError
  | undecodableEntry
  | rpc
  | notFound
  | encoding
  | undecodableAccount
  deriving DecidableEq, Repr

/-- The node, and the base64 decoding of what it returns. -/
structure Rpc where
  getAccount : Pubkey → Except Unit (Option String)
  decodeBase64 : String → Option (List UInt8)

/-- The thread from the cache, or else from the node, which is then cached under slot 0. -/
def getThreadOrFetch (rpc : Rpc) (cache : AccountCache e) (key : Pubkey) :
    Except FetchError Thread × AccountCache e :=
  match cache.get key with
  | some cached =>
    match e.tryDeserialize cached.data with
    | some t => (.ok t, cache)
    | none => (.error .undecodableEntry, cache)
  | none =>
    match rpc.getAccount key with
    | .error _ => (.error .rpc, cache)
    | .ok none => (.error .notFound, cache)
    | .ok (some encoded) =>
      match rpc.decodeBase64 encoded with
      | none => (.error .encoding, cache)
      | some data =>
        match e.tryDeserialize data with
        | none => (.error .undecodableAccount, cache)
        | some t => (.ok t, cache.put key data 0 (.fromThread t))

/-! ## The newest data of a key -/

/-- Deliveries of one account, as slot and data, with what `put_if_newer` returns for each. -/
def putAll (key : Pubkey) :
    AccountCache e → List (ℕ × List UInt8) → AccountCache e × List Bool
  | cache, [] => (cache, [])
  | cache, (slot, data) :: calls =>
    let (cache, isNew) := cache.putIfNewer key data slot
    let (cache, results) := putAll key cache calls
    (cache, isNew :: results)

/-- The data and the slot under which it is held. -/
def held (cache : AccountCache e) (key : Pubkey) : Option (ℕ × List UInt8) :=
  (cache key).map fun c => (c.slot, c.data)

def dataAt (cache : AccountCache e) (key : Pubkey) : Option (List UInt8) :=
  (cache key).map CachedAccount.data

/-- Which deliveries changed the cached data. -/
def changes (key : Pubkey) : AccountCache e → List (ℕ × List UInt8) → List Bool
  | _, [] => []
  | cache, (slot, data) :: calls =>
    let next := (cache.putIfNewer key data slot).1
    (next.dataAt key != cache.dataAt key) :: changes key next calls

@[simp] theorem put_self (cache : AccountCache e) (key : Pubkey) (data : List UInt8) (slot : ℕ)
    (triggerType : CacheTriggerType) : cache.put key data slot triggerType key =
      some ⟨data, slot, e.seahash data, triggerType, rfl⟩ :=
  Function.update_self ..

theorem put_of_ne (cache : AccountCache e) {key k : Pubkey} (h : k ≠ key) (data : List UInt8)
    (slot : ℕ) (triggerType : CacheTriggerType) : cache.put key data slot triggerType k = cache k :=
  Function.update_of_ne h ..

/-- What `put_if_newer` can do: store the data and report it, or drop it. -/
theorem putIfNewer_cases (cache : AccountCache e) (key : Pubkey) (data : List UInt8) (slot : ℕ) :
    (∃ c, cache key = some c ∧ (c.hash = e.seahash data ∨ slot < c.slot) ∧
      cache.putIfNewer key data slot = (cache, false)) ∨
    ((∀ c, cache key = some c → c.hash ≠ e.seahash data ∧ c.slot ≤ slot) ∧
      cache.putIfNewer key data slot =
        (cache.put key data slot (triggerTypeOf e data), true)) := by
  unfold putIfNewer get
  cases hkey : cache key with
  | none => exact Or.inr ⟨by simp, rfl⟩
  | some c =>
    by_cases hhash : c.hash = e.seahash data
    · exact Or.inl ⟨c, rfl, Or.inl hhash, if_pos hhash⟩
    · by_cases hslot : slot < c.slot
      · exact Or.inl ⟨c, rfl, Or.inr hslot, by simp [hhash, hslot]⟩
      · refine Or.inr ⟨fun c' hc' => ?_, by simp [hhash, hslot]⟩
        rw [← Option.some.inj hc']
        exact ⟨hhash, not_lt.mp hslot⟩

/-- A delivery touches its own key only. -/
theorem putIfNewer_of_ne (cache : AccountCache e) {key k : Pubkey} (h : k ≠ key)
    (data : List UInt8) (slot : ℕ) : (cache.putIfNewer key data slot).1 k = cache k := by
  rcases putIfNewer_cases cache key data slot with ⟨c, -, -, heq⟩ | ⟨-, heq⟩
  · rw [heq]
  · rw [heq]
    exact put_of_ne _ h _ _ _

/-- A delivery looks at its own key only. -/
theorem putIfNewer_congr {cache cache' : AccountCache e} {key : Pubkey}
    (h : cache key = cache' key) (data : List UInt8) (slot : ℕ) :
    (cache.putIfNewer key data slot).1 key = (cache'.putIfNewer key data slot).1 key ∧
      (cache.putIfNewer key data slot).2 = (cache'.putIfNewer key data slot).2 := by
  unfold putIfNewer get
  rw [← h]
  cases hkey : cache key with
  | none => simp
  | some c =>
    by_cases hhash : c.hash = e.seahash data
    · simp [hhash, hkey, ← h]
    · by_cases hslot : slot < c.slot
      · simp [hhash, hslot, hkey, ← h]
      · simp [hhash, hslot]

/-- Where a thread is read from: the cache, nowhere, or the node. -/
theorem getThreadOrFetch_cases (rpc : Rpc) (cache : AccountCache e) (key : Pubkey) :
    (∃ c t, cache key = some c ∧ e.tryDeserialize c.data = some t ∧
      cache.getThreadOrFetch rpc key = (.ok t, cache)) ∨
    (∃ err, cache.getThreadOrFetch rpc key = (.error err, cache)) ∨
    (∃ encoded data t, cache key = none ∧ rpc.getAccount key = .ok (some encoded) ∧
      rpc.decodeBase64 encoded = some data ∧ e.tryDeserialize data = some t ∧
      cache.getThreadOrFetch rpc key = (.ok t, cache.put key data 0 (.fromThread t))) := by
  unfold getThreadOrFetch get
  cases hkey : cache key with
  | some c =>
    cases ht : e.tryDeserialize c.data with
    | some t => exact Or.inl ⟨c, t, rfl, ht, by simp [ht]⟩
    | none => exact Or.inr (Or.inl ⟨.undecodableEntry, by simp [ht]⟩)
  | none =>
    refine Or.inr ?_
    cases haccount : rpc.getAccount key with
    | error _ => exact Or.inl ⟨.rpc, by simp⟩
    | ok account =>
      cases account with
      | none => exact Or.inl ⟨.notFound, by simp⟩
      | some encoded =>
        cases hdata : rpc.decodeBase64 encoded with
        | none => exact Or.inl ⟨.encoding, by simp [hdata]⟩
        | some data =>
          cases ht : e.tryDeserialize data with
          | none => exact Or.inl ⟨.undecodableAccount, by simp [hdata, ht]⟩
          | some t => exact Or.inr ⟨encoded, data, t, rfl, rfl, hdata, ht, by simp [hdata, ht]⟩

/-- Data of another hash is other data. -/
theorem CachedAccount.hash_eq_iff (hinj : Function.Injective e.seahash) (c : CachedAccount e)
    (data : List UInt8) : c.hash = e.seahash data ↔ c.data = data := by
  rw [c.hash_eq]
  exact hinj.eq_iff

/-- The step lemma: on one key the cache is a register. -/
theorem putIfNewer_held (hinj : Function.Injective e.seahash) (cache : AccountCache e)
    (key : Pubkey) (data : List UInt8) (slot : ℕ) :
    (cache.putIfNewer key data slot).1.held key = Register.offer (cache.held key) (slot, data) := by
  rcases putIfNewer_cases cache key data slot with ⟨c, hkey, hdrop, heq⟩ | ⟨hnew, heq⟩
  · rw [heq]
    simp only [held, hkey, Option.map_some, Register.offer]
    rcases hdrop with hhash | hslot
    · rw [if_pos ((CachedAccount.hash_eq_iff hinj c data).mp hhash)]
    · simp [hslot]
  · rw [heq]
    cases hkey : cache key with
    | none => simp [held, hkey, Register.offer]
    | some c =>
      obtain ⟨hhash, hslot⟩ := hnew c hkey
      have hdata : c.data ≠ data := fun h => hhash ((CachedAccount.hash_eq_iff hinj c data).mpr h)
      simp [held, hkey, Register.offer, hdata, not_lt.mpr hslot]

/-- The run lemma. -/
theorem putAll_held (hinj : Function.Injective e.seahash) (key : Pubkey) (cache : AccountCache e)
    (calls : List (ℕ × List UInt8)) :
    (putAll key cache calls).1.held key = calls.foldl Register.offer (cache.held key) := by
  induction calls generalizing cache with
  | nil => rfl
  | cons call calls ih =>
    rw [List.foldl_cons, ← putIfNewer_held hinj]
    exact ih _

/-- A delivery is reported as new exactly if it changes the data. -/
theorem putIfNewer_reports (hinj : Function.Injective e.seahash) (cache : AccountCache e)
    (key : Pubkey) (data : List UInt8) (slot : ℕ) :
    (cache.putIfNewer key data slot).2 =
      ((cache.putIfNewer key data slot).1.dataAt key != cache.dataAt key) := by
  rcases putIfNewer_cases cache key data slot with ⟨c, -, -, heq⟩ | ⟨hnew, heq⟩
  · rw [heq]
    simp
  · rw [heq]
    cases hkey : cache key with
    | none => simp [dataAt, hkey]
    | some c =>
      have hdata : data ≠ c.data := fun h =>
        (hnew c hkey).1 ((CachedAccount.hash_eq_iff hinj c data).mpr h.symm)
      simp [dataAt, hkey, hdata]

theorem putAll_reports (hinj : Function.Injective e.seahash) (key : Pubkey)
    (cache : AccountCache e) (calls : List (ℕ × List UInt8)) :
    (putAll key cache calls).2 = changes key cache calls := by
  induction calls generalizing cache with
  | nil => rfl
  | cons call calls ih =>
    have hhead := putIfNewer_reports hinj cache key call.2 call.1
    have htail := ih (cache.putIfNewer key call.2 call.1).1
    simp only [putAll, changes]
    rw [← hhead, htail]

/-- After every delivery the cached data is that of the highest slot delivered so far, and
the deliveries reported as new are those that changed the data. -/
structure KeepsNewest (cache : AccountCache e) (key : Pubkey) (calls : List (ℕ × List UInt8)) :
    Prop where
  newest : ∀ front, front <+: calls → front ≠ [] →
    ∃ data, (putAll key cache front).1.dataAt key = some data ∧ Register.Newest front data
  reported : (putAll key cache calls).2 = changes key cache calls

/-- The cache keeps the newest data of a key if and only if no delivery of different data
falls between the slot under which the cached data was stored and a later one under which
the same data was delivered again. -/
theorem cache_keeps_newest_iff (hinj : Function.Injective e.seahash) {cache : AccountCache e}
    {key : Pubkey} (hnone : cache key = none) {calls : List (ℕ × List UInt8)}
    (hslots : Register.Functional calls) :
    KeepsNewest cache key calls ↔ ¬ Register.Overtaken calls := by
  rw [← Register.alwaysNewest_iff hslots]
  have hheld : ∀ front, (putAll key cache front).1.held key = Register.offerAll front := by
    intro front
    rw [putAll_held hinj, held, hnone]
    rfl
  have hdata : ∀ front, (putAll key cache front).1.dataAt key =
      (Register.offerAll front).map Prod.snd := by
    intro front
    rw [← hheld, dataAt, held, Option.map_map]
    rfl
  constructor
  · intro h front hfront hne
    obtain ⟨data, hcached, hnewest⟩ := h.newest front hfront hne
    rw [hdata] at hcached
    obtain ⟨c, hc, rfl⟩ := Option.map_eq_some_iff.mp hcached
    exact ⟨c, hc, hnewest⟩
  · intro h
    refine ⟨fun front hfront hne => ?_, putAll_reports hinj key cache calls⟩
    obtain ⟨c, hc, hnewest⟩ := h front hfront hne
    exact ⟨c.2, by rw [hdata, hc]; rfl, hnewest⟩

/-- A hash without collisions. -/
def sampleCacheEnv (threads : List UInt8 → Option Thread) : CacheEnv where
  seahash data := Encodable.encode (data.map UInt8.toNat)
  tryDeserialize := threads

theorem sampleCacheEnv_injective (threads : List UInt8 → Option Thread) :
    Function.Injective (sampleCacheEnv threads).seahash := by
  intro data data' h
  have hmap := Encodable.encode_injective h
  exact List.map_injective_iff.mpr (fun _ _ hb => UInt8.toNat_inj.mp hb) hmap

/-- Thread 1 in four bytes: kind of trigger, count of executions, next moment and pause. -/
def decodeSample : List UInt8 → Option Thread
  | [kind, count, next, paused] =>
    let thread (trigger : Trigger) (schedule : Schedule) : Thread :=
      { ThreadProgram.sampleThread trigger [0] with
        schedule := schedule, execCount := count.toNat, paused := paused ≠ 0 }
    match kind.toNat with
    | 0 => some (thread (.interval 10 false 0) (.timed 0 next.toNat))
    | 1 => some (thread (.slot next.toNat) (.block 0 next.toNat))
    | 2 => some (thread (.epoch next.toNat) (.block 0 next.toNat))
    | _ => none
  | _ => none

def threadEnv : CacheEnv := sampleCacheEnv decodeSample

/-- Data `[1]` is delivered for the slots 1 and 5, and `[2]` for slot 3 after that: slot 5 is
the highest, and the cache ends with `[2]`. -/
theorem repeated_data_is_overtaken :
    Function.Injective (sampleCacheEnv fun _ => none).seahash ∧
    Register.Functional [(1, [(1 : UInt8)]), (5, [1]), (3, [2])] ∧
    Register.Newest [(1, [(1 : UInt8)]), (5, [1]), (3, [2])] [1] ∧
    (putAll (e := sampleCacheEnv fun _ => none) 7 (fun _ => none)
      [(1, [1]), (5, [1]), (3, [2])]).1.dataAt 7 = some [2] ∧
    ¬ KeepsNewest (e := sampleCacheEnv fun _ => none) (fun _ => none) 7
      [(1, [1]), (5, [1]), (3, [2])] := by
  have hfinal : (putAll (e := sampleCacheEnv fun _ => none) 7 (fun _ => none)
      [(1, [1]), (5, [1]), (3, [2])]).1.dataAt 7 = some [2] := by
    decide +kernel
  refine ⟨sampleCacheEnv_injective _, ?_, ⟨5, by simp, by simp⟩, hfinal, fun h => ?_⟩
  · unfold Register.Functional
    decide
  · obtain ⟨data, hdata, v, hmem, hmax⟩ := h.newest _ List.prefix_rfl (by simp)
    rw [hfinal] at hdata
    obtain rfl := Option.some.inj hdata
    have hv : v = 3 := by simpa using hmem
    have hle : 5 ≤ v := hmax (5, [1]) (by simp)
    omega

/-- Slot 3 is delivered after slot 5 and is dropped. -/
theorem late_delivery_is_dropped :
    KeepsNewest (e := sampleCacheEnv fun _ => none) (fun _ => none) 7 [(5, [1]), (3, [2])] := by
  have hslots : Register.Functional [(5, [(1 : UInt8)]), (3, [2])] := by
    unfold Register.Functional
    decide
  refine (cache_keeps_newest_iff (sampleCacheEnv_injective _) rfl hslots).mpr ?_
  rintro ⟨before, v₀, d₀, mid, v, d, after, hcalls, -, -, -, -, c, hc, -⟩
  have hlength := congrArg List.length hcalls
  have hpos := List.length_pos_of_mem hc
  simp only [List.length_append, List.length_cons, List.length_nil] at hlength
  omega

end AccountCache

end Antegen.Client
