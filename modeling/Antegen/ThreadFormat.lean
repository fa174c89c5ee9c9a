import Antegen.BorshSums
import Antegen.FiberState
import Antegen.ThreadState

/-!
# Thread accounts on disk

A thread account is its discriminator and the Borsh encoding of all fields, written over
the front of the data. The account has more room than a thread usually needs, and what an
earlier, longer state left behind an encoding is never read. Two fields are stored that
no instruction reads: a name made from the id, and a nonce that is always empty.
-/
namespace Antegen

open Borsh

/-! ## Triggers, schedules and signals -/

inductive Trigger.Kind
  | account
  | immediate
  | timestamp
  | interval
  | cron
  | slot
  | epoch
  deriving DecidableEq

namespace Trigger.Kind

abbrev Fields : Kind → Type
  | account => Pubkey × ℕ × ℕ
  | immediate => ℕ
  | timestamp => ℤ × ℕ
  | interval => ℤ × Bool × ℕ
  | cron => String × Bool × ℕ
  | slot => ℕ
  | epoch => ℕ

def tag : Codec Kind :=
  enumeration [account, immediate, timestamp, interval, cron, slot, epoch]
    (fun k => by cases k <;> decide) (by decide)

def fields : (k : Kind) → Codec k.Fields
  | account => pubkeyCodec.pair ((uint 8).pair (uint 8))
  | immediate => uint 8
  | timestamp => (sint 8).pair (uint 8)
  | interval => (sint 8).pair (bool.pair (uint 8))
  | cron => string.pair (bool.pair (uint 8))
  | slot => uint 8
  | epoch => uint 8

def make : (k : Kind) → k.Fields → Trigger
  | account, f => .account f.1 f.2.1 f.2.2
  | immediate, jitter => .immediate jitter
  | timestamp, f => .timestamp f.1 f.2
  | interval, f => .interval f.1 f.2.1 f.2.2
  | cron, f => .cron f.1 f.2.1 f.2.2
  | slot, n => .slot n
  | epoch, n => .epoch n

end Trigger.Kind

namespace Trigger

def split : Trigger → (k : Kind) × k.Fields
  | account address offset size => ⟨.account, address, offset, size⟩
  | immediate jitter => ⟨.immediate, jitter⟩
  | timestamp unixTs jitter => ⟨.timestamp, unixTs, jitter⟩
  | interval seconds skippable jitter => ⟨.interval, seconds, skippable, jitter⟩
  | cron schedule skippable jitter => ⟨.cron, schedule, skippable, jitter⟩
  | slot n => ⟨.slot, n⟩
  | epoch n => ⟨.epoch, n⟩

def codec : Codec Trigger :=
  (Kind.tag.sigma Kind.fields).imap split (fun p => p.1.make p.2) fun t => by cases t <;> rfl

/-- Bytes of a trigger; only a cron string has no fixed width. -/
def size : Trigger → ℕ
  | account _ _ _ => 49
  | immediate _ => 9
  | timestamp _ _ => 17
  | interval _ _ _ => 18
  | cron schedule _ _ => 14 + schedule.utf8ByteSize
  | slot _ => 9
  | epoch _ => 9

end Trigger

inductive Schedule.Kind
  | onChange
  | timed
  | block
  deriving DecidableEq

namespace Schedule.Kind

abbrev Fields : Kind → Type
  | onChange => ℕ
  | timed => ℤ × ℤ
  | block => ℕ × ℕ

def tag : Codec Kind :=
  enumeration [onChange, timed, block] (fun k => by cases k <;> decide) (by decide)

def fields : (k : Kind) → Codec k.Fields
  | onChange => uint 8
  | timed => (sint 8).pair (sint 8)
  | block => (uint 8).pair (uint 8)

def make : (k : Kind) → k.Fields → Schedule
  | onChange, prev => .onChange prev
  | timed, f => .timed f.1 f.2
  | block, f => .block f.1 f.2

end Schedule.Kind

namespace Schedule

def split : Schedule → (k : Kind) × k.Fields
  | onChange prev => ⟨.onChange, prev⟩
  | timed prev next => ⟨.timed, prev, next⟩
  | block prev next => ⟨.block, prev, next⟩

def codec : Codec Schedule :=
  (Kind.tag.sigma Kind.fields).imap split (fun p => p.1.make p.2) fun s => by cases s <;> rfl

def size : Schedule → ℕ
  | onChange _ => 9
  | timed _ _ => 17
  | block _ _ => 17

end Schedule

inductive Signal.Kind
  | none
  | chain
  | close
  | again
  | next
  | update
  deriving DecidableEq

namespace Signal.Kind

abbrev Fields : Kind → Type
  | none => Unit
  | chain => Unit
  | close => Unit
  | again => Unit
  | next => UInt8
  | update => Option Bool × Option Trigger × Option UInt8

def tag : Codec Kind :=
  enumeration [none, chain, close, again, next, update] (fun k => by cases k <;> decide) (by decide)

def fields : (k : Kind) → Codec k.Fields
  | none => Codec.unit
  | chain => Codec.unit
  | close => Codec.unit
  | again => Codec.unit
  | next => u8
  | update => (option bool).pair ((option Trigger.codec).pair (option u8))

def make : (k : Kind) → k.Fields → Signal
  | none, _ => .none
  | chain, _ => .chain
  | close, _ => .close
  | again, _ => .again
  | next, index => .next index
  | update, f => .update f.1 f.2.1 f.2.2

end Signal.Kind

namespace Signal

def split : Signal → (k : Kind) × k.Fields
  | none => ⟨.none, ()⟩
  | chain => ⟨.chain, ()⟩
  | close => ⟨.close, ()⟩
  | again => ⟨.again, ()⟩
  | next index => ⟨.next, index⟩
  | update paused trigger index => ⟨.update, paused, trigger, index⟩

def codec : Codec Signal :=
  (Kind.tag.sigma Kind.fields).imap split (fun p => p.1.make p.2) fun s => by cases s <;> rfl

def size : Signal → ℕ
  | none => 1
  | chain => 1
  | close => 1
  | again => 1
  | next _ => 2
  | update paused trigger index =>
    1 + ((1 + paused.elim 0 fun _ => 1) + ((1 + trigger.elim 0 Trigger.size) +
      (1 + index.elim 0 fun _ => 1)))

end Signal

/-! ## The account -/

/-- The stored thread, with its name and the nonce that it last used. -/
structure ThreadRecord where
  thread : Thread
  name : String
  lastNonce : String
  deriving DecidableEq

namespace ThreadRecord

/-- First eight bytes of the SHA-256 hash of `account:Thread`. -/
def discriminator : List UInt8 := [186, 27, 154, 111, 51, 36, 159, 90]

/-- Who the thread is: the fields before its trigger. -/
abbrev Identity := UInt8 × UInt8 × Pubkey × List UInt8 × String × ℤ

/-- What it does next: from its trigger to the pending signal. -/
abbrev Plan := Trigger × Schedule × List UInt8 × UInt8 × UInt8 × Signal

/-- What happened to it, and how it is closed. -/
abbrev History := Bool × ℕ × Pubkey × Pubkey × String × List UInt8

def identity (r : ThreadRecord) : Identity :=
  let t := r.thread
  (t.version, t.bump, t.authority, t.id, r.name, t.createdAt)

def plan (r : ThreadRecord) : Plan :=
  let t := r.thread
  (t.trigger, t.schedule, t.fiberIds, t.fiberCursor, t.fiberNextId, t.fiberSignal)

def history (r : ThreadRecord) : History :=
  let t := r.thread
  (t.paused, t.execCount, t.lastExecutor, t.nonceAccount, r.lastNonce, t.closeFiber)

def make (i : Identity) (p : Plan) (h : History) : ThreadRecord where
  thread := {
    version := i.1
    bump := i.2.1
    authority := i.2.2.1
    id := i.2.2.2.1
    createdAt := i.2.2.2.2.2
    trigger := p.1
    schedule := p.2.1
    fiberIds := p.2.2.1
    fiberCursor := p.2.2.2.1
    fiberNextId := p.2.2.2.2.1
    fiberSignal := p.2.2.2.2.2
    paused := h.1
    execCount := h.2.1
    lastExecutor := h.2.2.1
    nonceAccount := h.2.2.2.1
    closeFiber := h.2.2.2.2.2 }
  name := i.2.2.2.2.1
  lastNonce := h.2.2.2.2.1

def identityCodec : Codec Identity :=
  u8.pair (u8.pair (pubkeyCodec.pair ((vec u8).pair (string.pair (sint 8)))))

def planCodec : Codec Plan :=
  Trigger.codec.pair (Schedule.codec.pair ((vec u8).pair (u8.pair (u8.pair Signal.codec))))

def historyCodec : Codec History :=
  bool.pair ((uint 8).pair (pubkeyCodec.pair (pubkeyCodec.pair (string.pair (vec u8)))))

/-- The fields in their order on disk. -/
def codec : Codec ThreadRecord :=
  (identityCodec.pair (planCodec.pair historyCodec)).imap
    (fun r => (r.identity, r.plan, r.history)) (fun f => make f.1 f.2.1 f.2.2) fun _ => rfl

/-- `try_serialize` over the data of the account, at the exit of an instruction. -/
def write (data : List UInt8) (r : ThreadRecord) : Result (List UInt8) := do
  let bytes ← ofOption .borsh (codec.enc r)
  require (8 + bytes.length ≤ data.length) .borsh
  pure (discriminator ++ bytes ++ data.drop (8 + bytes.length))

/-- `Thread::try_deserialize`. -/
def tryDeserialize (buf : List UInt8) : Result ThreadRecord := do
  require (8 ≤ buf.length ∧ buf.take 8 = discriminator) .accountDiscriminator
  let p ← ofOption .borsh (codec.dec (buf.drop 8))
  pure p.1

/-- Bytes of a record after its discriminator. -/
def size (r : ThreadRecord) : ℕ :=
  137 + r.thread.id.length + r.name.utf8ByteSize + r.thread.trigger.size + r.thread.schedule.size +
    r.thread.fiberIds.length + r.thread.fiberSignal.size + r.lastNonce.utf8ByteSize +
    r.thread.closeFiber.length

end ThreadRecord

/-! ## Sizes -/

theorem pubkeyCodec_sized : Sized pubkeyCodec fun _ => 32 := pubkeyCodec_length

namespace Trigger

theorem codec_sized : Sized codec size := by
  have hfields : ∀ k : Kind, Sized k.fields fun f => (k.make f).size - 1 := by
    intro k
    cases k with
    | account => exact pubkeyCodec_sized.pair ((Sized.uint 8).pair (Sized.uint 8))
    | immediate => exact Sized.uint 8
    | timestamp => exact (Sized.sint 8).pair (Sized.uint 8)
    | interval => exact (Sized.sint 8).pair (Sized.bool.pair (Sized.uint 8))
    | cron =>
      intro f bytes h
      rw [Sized.string.pair (Sized.bool.pair (Sized.uint 8)) f bytes h]
      simp [Kind.make, size]
      omega
    | slot => exact Sized.uint 8
    | epoch => exact Sized.uint 8
  intro t bytes h
  rw [(Sized.sigma (Sized.enumeration _ _) hfields).imap _ _ _ t bytes h]
  cases t <;> simp [split, Kind.make, size]
  omega

end Trigger

theorem Schedule.codec_sized : Sized Schedule.codec Schedule.size := by
  have hfields : ∀ k : Kind, Sized k.fields fun f => (k.make f).size - 1 := by
    intro k
    cases k with
    | onChange => exact Sized.uint 8
    | timed => exact (Sized.sint 8).pair (Sized.sint 8)
    | block => exact (Sized.uint 8).pair (Sized.uint 8)
  intro s bytes h
  rw [(Sized.sigma (Sized.enumeration _ _) hfields).imap _ _ _ s bytes h]
  cases s <;> rfl

theorem Signal.codec_sized : Sized Signal.codec Signal.size := by
  have hfields : ∀ k : Kind, Sized k.fields fun f => (k.make f).size - 1 := by
    intro k
    cases k with
    | none => exact Sized.unit
    | chain => exact Sized.unit
    | close => exact Sized.unit
    | again => exact Sized.unit
    | next => exact Sized.u8
    | update =>
      intro f bytes h
      rw [(Sized.option Sized.bool).pair ((Sized.option Trigger.codec_sized).pair
        (Sized.option Sized.u8)) f bytes h]
      simp [Kind.make, size]
  intro s bytes h
  rw [(Sized.sigma (Sized.enumeration _ _) hfields).imap _ _ _ s bytes h]
  cases s <;> simp [split, Kind.make, size]

namespace ThreadRecord

theorem identityCodec_sized :
    Sized identityCodec fun f => 50 + f.2.2.2.1.length + f.2.2.2.2.1.utf8ByteSize := by
  intro f bytes h
  rw [Sized.u8.pair (Sized.u8.pair (pubkeyCodec_sized.pair ((Sized.vec Sized.u8).pair
    (Sized.string.pair (Sized.sint 8))))) f bytes h]
  dsimp only
  omega

theorem planCodec_sized : Sized planCodec fun f =>
    6 + f.1.size + f.2.1.size + f.2.2.1.length + f.2.2.2.2.2.size := by
  intro f bytes h
  rw [Trigger.codec_sized.pair (Schedule.codec_sized.pair ((Sized.vec Sized.u8).pair
    (Sized.u8.pair (Sized.u8.pair Signal.codec_sized)))) f bytes h]
  dsimp only
  omega

theorem historyCodec_sized : Sized historyCodec fun f =>
    81 + f.2.2.2.2.1.utf8ByteSize + f.2.2.2.2.2.length := by
  intro f bytes h
  rw [Sized.bool.pair ((Sized.uint 8).pair (pubkeyCodec_sized.pair (pubkeyCodec_sized.pair
    (Sized.string.pair (Sized.vec Sized.u8))))) f bytes h]
  dsimp only
  omega

theorem codec_sized : Sized codec size := by
  intro r bytes h
  rw [(identityCodec_sized.pair (planCodec_sized.pair historyCodec_sized)).imap _ _ _ r bytes h]
  simp only [identity, plan, history, size]
  omega

theorem write_eq_ok {data out : List UInt8} {r : ThreadRecord} (h : r.write data = .ok out) :
    ∃ bytes, codec.enc r = some bytes ∧ 8 + r.size ≤ data.length ∧
      out = discriminator ++ bytes ++ data.drop (8 + r.size) := by
  simp only [write, bind_eq_ok, ofOption_eq_ok, require_eq_ok, exists_and_left, exists_const,
    pure_eq_ok] at h
  obtain ⟨bytes, henc, hle, rfl⟩ := h
  have hlen := codec_sized r bytes henc
  exact ⟨bytes, henc, hlen ▸ hle, by rw [hlen]⟩

/-- A record can be stored if its fields have their widths and there is room for it. -/
theorem exists_write {data bytes : List UInt8} {r : ThreadRecord}
    (henc : codec.enc r = some bytes) :
    (∃ out, r.write data = .ok out) ↔ 8 + r.size ≤ data.length := by
  constructor
  · rintro ⟨out, h⟩
    obtain ⟨-, -, hle, -⟩ := write_eq_ok h
    exact hle
  · intro hle
    rw [← codec_sized r bytes henc] at hle
    simp [write, henc, ofOption, require, hle, bind, Except.bind]

theorem write_length {data out : List UInt8} {r : ThreadRecord} (h : r.write data = .ok out) :
    out.length = data.length := by
  obtain ⟨bytes, henc, hle, rfl⟩ := write_eq_ok h
  have hlen := codec_sized r bytes henc
  simp only [List.length_append, List.length_drop, discriminator, List.length_cons,
    List.length_nil]
  omega

/-- A stored record is read back, whatever it was written over. -/
theorem tryDeserialize_write {data out : List UInt8} {r : ThreadRecord}
    (h : r.write data = .ok out) : tryDeserialize out = .ok r := by
  obtain ⟨bytes, henc, -, rfl⟩ := write_eq_ok h
  have hdec := codec.dec_enc r bytes (data.drop (8 + r.size)) henc
  simp [tryDeserialize, discriminator, require, ofOption, hdec, bind, Except.bind, pure,
    Except.pure]

/-- What is stored as a thread is not taken for a fiber. -/
theorem fiber_tryDeserialize_write {data out : List UInt8} {r : ThreadRecord}
    (h : r.write data = .ok out) :
    Fiber.tryDeserialize out = .error (.fiber .invalidFiberData) := by
  obtain ⟨bytes, -, -, rfl⟩ := write_eq_ok h
  simp [Fiber.tryDeserialize, discriminator, FiberVersionedState.discriminator,
    FiberState.discriminator]

/-- Whatever records an account has held, the last one is read back from it, by the thread
program only, and the account keeps its length. -/
theorem last_record_is_read {data out : List UInt8} {records : List ThreadRecord}
    {r : ThreadRecord}
    (h : (records ++ [r]).foldlM (fun data r => r.write data) data = .ok out) :
    tryDeserialize out = .ok r ∧ out.length = data.length ∧
      Fiber.tryDeserialize out = .error (.fiber .invalidFiberData) := by
  induction records generalizing data with
  | nil =>
    have hwrite : r.write data = .ok out := by simpa using h
    exact ⟨tryDeserialize_write hwrite, write_length hwrite, fiber_tryDeserialize_write hwrite⟩
  | cons first records ih =>
    rw [List.cons_append, List.foldlM_cons, bind_eq_ok] at h
    obtain ⟨data', hfirst, hrest⟩ := h
    obtain ⟨hread, hlen, hfiber⟩ := ih hrest
    exact ⟨hread, hlen.trans (write_length hfirst), hfiber⟩

/-- A thread with the cron string of a nightly job. -/
def sampleRecord (schedule : String) : ThreadRecord where
  thread := {
    version := 1
    bump := 255
    authority := 5
    id := [1]
    createdAt := 50
    trigger := .cron schedule false 0
    schedule := .timed 50 100
    fiberIds := [0]
    fiberCursor := 0
    fiberNextId := 1
    fiberSignal := .chain
    paused := false
    execCount := 3
    lastExecutor := 9
    nonceAccount := 11
    closeFiber := [7] }
  name := "a"
  lastNonce := ""

/-- A shorter record over a longer one. -/
theorem last_record_is_read_sample :
    ∃ out, ([sampleRecord "0 0 0 * * *"] ++ [sampleRecord ""]).foldlM
        (fun data (r : ThreadRecord) => r.write data) (List.replicate 300 0) = .ok out ∧
      tryDeserialize out = .ok (sampleRecord "") := by
  have hrun : (([sampleRecord "0 0 0 * * *"] ++ [sampleRecord ""]).foldlM
      (fun data (r : ThreadRecord) => r.write data) (List.replicate 300 0)).map (fun _ => ()) =
        .ok () := by
    decide +kernel
  obtain ⟨out, hout, -⟩ := map_eq_ok.mp hrun
  exact ⟨out, hout, (last_record_is_read hout).1⟩

end ThreadRecord

end Antegen
