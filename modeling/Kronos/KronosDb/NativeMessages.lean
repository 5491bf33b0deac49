import Kronos.Lib.OrderedMap
import Kronos.KronosDb.Wire

/-!
# Commands, queries and results on the wire

The writers put the fields into the frame in the order of the schema; the
readers take what the receiver uses and skip or leave the rest. Metadata has two
readers, `readMetadata` for the bytes and `metadataFromEntries` for what the
generated codec has decoded.

A record is the list of its own enumerable properties, in the order in which
they are visited. A property named `__proto__` is one of them: both readers
define it. A double that is no whole number is kept as its bits.
-/
namespace Kronos.KronosDb.NativeMessages
open Kronos.Lib Kronos.Lib.Utf8 Wire
open NativeTransport (Bytes)

/-- A value of the framework's metadata. -/
inductive Value where
  | text (s : Str)
  /-- A number that is an integer. -/
  | integer (v : ℤ)
  | double (bits : UInt64)
  | boolean (b : Bool)
  | bigint (v : ℤ)
  /-- Anything else, by what `JSON.stringify` makes of it. -/
  | other (json : Option Str)
  | nullish
  deriving DecidableEq, Repr

structure Metadata where
  entries : List (Str × Value)
  nodup : (entries.map Prod.fst).Nodup

/-- A value of metadata that was read; a number is a double. -/
inductive Received where
  | text (s : Str)
  | number (v : ℤ)
  | boolean (b : Bool)
  | double (bits : UInt64)
  deriving DecidableEq, Repr

structure SerializedObject where
  type : Str
  revision : Str
  data : Bytes
  deriving DecidableEq, Repr

/-! ## Writing -/

/-- `BigInt.asIntN(64, v) === v`. -/
def FitsI64 (v : ℤ) : Prop := -9223372036854775808 ≤ v ∧ v < 9223372036854775808

instance : DecidablePred FitsI64 := fun _ => inferInstanceAs (Decidable (_ ∧ _))

def writeI64Number (v : ℤ) : Body :=
  if Binary64.Safe v then .write (i64 v) 0
  else if FitsI64 v then .write (i64 v) 0
  else .throws (toString v ++ " does not fit in an i64")

/-- A text as it stands in an error. -/
def display (s : Str) : String := String.ofList ((toScalars s).map Char.ofNat)

/-- One entry; nothing where the value is not sent. -/
def writeEntry (key : Str) (value : Value) : Option Body :=
  let writeKey := writeStr16 key "MessageMetadata.key"
  match value with
  | .text s => some (writeKey.andThen ((writeU8 1).andThen (writeStr32 s "MetadataValue.text")))
  | .integer v => some (writeKey.andThen ((writeU8 2).andThen (writeI64Number v)))
  | .double bits => some (writeKey.andThen ((writeU8 4).andThen (.write (u64 bits.toNat) 0)))
  | .boolean b => some (writeKey.andThen ((writeU8 3).andThen (writeU8 (if b then 1 else 0))))
  | .bigint v =>
      if FitsI64 v then some (writeKey.andThen ((writeU8 2).andThen (.write (i64 v) 0)))
      else some
        (.throws ("metadata '" ++ display key ++ "': " ++ toString v ++ " does not fit in an i64"))
  | .other (some json) =>
      some (writeKey.andThen ((writeU8 1).andThen (writeStr32 json "MetadataValue.text")))
  | .other none => none
  | .nullish => none

/-- The entries that are written. -/
def sentEntries (metadata : Metadata) : List Body :=
  metadata.entries.filterMap fun entry => writeEntry entry.1 entry.2

def writeMetadata : Option Metadata → Body
  | none => writeU16 0
  | some metadata =>
      let entries := sentEntries metadata
      let inner := writeEach id entries
      if 0xffff < entries.length then
        (writeU16 0).andThen (inner.andThen
          (.throws ("message metadata: " ++ toString entries.length ++
            " entries exceed the u16 limit")))
      else .patched (u16 0) (fun _ => u16 entries.length) (fun _ => rfl) inner

def writePayload (payload : SerializedObject) : Body :=
  (writeStr16 payload.type "Payload.type_name").andThen
    ((writeStr16 payload.revision "Payload.revision").andThen
      (writeBytes32 payload.data "Payload.data"))

structure OutgoingMessage where
  messageId : Str
  name : Str
  timestamp : ℤ
  payload : SerializedObject
  metadata : Option Metadata

def writeMessage (message : OutgoingMessage) (instructions : Bytes)
    (clientId componentName : Str) : Body :=
  (writeStr16 message.messageId "Command.message_id").andThen
    ((writeStr16 message.name "Command.name").andThen
      ((writeMillis message.timestamp).andThen
        ((writePayload message.payload).andThen
          ((writeMetadata message.metadata).andThen
            ((writeBytes instructions).andThen
              ((writeStr16 clientId "Command.client_id").andThen
                (writeStr16 componentName "Command.component_name")))))))

structure OutgoingResult where
  requestId : Str
  errorCode : Str
  errorMessage : Str
  location : Str
  payload : Option SerializedObject

def writeErrorDetail (result : OutgoingResult) : Body :=
  if result.errorCode = [] then writeU8 0
  else
    (writeU8 1).andThen
      ((writeStr32 result.errorMessage "ErrorDetail.message").andThen
        ((writeStr16 result.location "ErrorDetail.location").andThen
          ((writeLen16 0 "ErrorDetail.details").andThen
            (writeStr16 result.errorCode "ErrorDetail.error_code"))))

def writeOptionalPayload : Option SerializedObject → Body
  | none => writeU8 0
  | some payload => (writeU8 1).andThen (writePayload payload)

def writeResult (result : OutgoingResult) : Body :=
  (writeStr16 [] "Result.message_id").andThen
    ((writeStr16 result.requestId "Result.request_id").andThen
      ((writeStr16 result.errorCode "Result.error_code").andThen
        ((writeErrorDetail result).andThen
          ((writeOptionalPayload result.payload).andThen ((writeU16 0).andThen (writeU16 0))))))

/-! ## Reading -/

def skipStr16 : Reader Unit := do skip (← readU16)

def skipStr32 : Reader Unit := do skip (← readU32)

def skipPayload : Reader Unit := do
  skipStr16
  skipStr16
  skip (← readU32)

def skipEach : ℕ → Reader Unit
  | 0 => pure ()
  | n + 1 => do
      skipStr32
      skipEach n

def skipErrorDetail : Reader Unit := do
  skipStr32
  skipStr16
  skipEach (← readU16)
  skipStr16

/-- A value; none for a typed object, which is not kept. -/
def readValue : Reader (Option Received) := do
  match ← readU8 with
  | 1 => return some (.text (← readStr32))
  | 2 => do
      let lo ← readU32
      let hi ← readU32
      return some (.number (joinHalves lo hi))
  | 3 => return some (.boolean ((← readU8) == 1))
  | 4 => return some (.double (UInt64.ofNat (← readU64)))
  | 5 => do
      skipPayload
      return none
  | _ => failure

/-- A property is set, unless there is none. -/
def define (key : Str) : Option Received → List (Str × Received) → List (Str × Received)
  | some value, out => OrderedMap.set key value out
  | none, out => out

def readEntries : ℕ → List (Str × Received) → Reader (List (Str × Received))
  | 0, out => pure out
  | n + 1, out => do
      let key ← readStr16
      let value ← readValue
      readEntries n (define key value out)

def readMetadata : Reader (List (Str × Received)) := do readEntries (← readU16) []

/-- The fields of a payload, as `readMessage` and `readResult` read them. -/
def readPayload : Reader SerializedObject := do
  let type ← readStr16
  let revision ← readStr16
  let data ← readBytes32
  return ⟨type, revision, data⟩

structure IncomingMessage where
  messageId : Str
  name : Str
  timestamp : ℤ
  payload : SerializedObject
  metadata : List (Str × Received)
  deriving DecidableEq, Repr

def readMessage : Reader IncomingMessage := do
  let messageId ← readStr16
  let name ← readStr16
  let timestamp ← readMillis
  let payload ← readPayload
  let metadata ← readMetadata
  return ⟨messageId, name, timestamp, payload, metadata⟩

structure IncomingResult where
  errorCode : Str
  errorMessage : Str
  payload : Option SerializedObject
  deriving DecidableEq, Repr

/-- The rest of a result with an error code: its message, and nothing after it. -/
def readFailure (errorCode : Str) : Reader IncomingResult := do
  if ← readFlag then return ⟨errorCode, ← readStr32, none⟩ else return ⟨errorCode, [], none⟩

/-- The payload of a result without one. -/
def readSuccess (errorCode : Str) : Reader IncomingResult := do
  if ← readFlag then return ⟨errorCode, [], some (← readPayload)⟩ else return ⟨errorCode, [], none⟩

def readResult : Reader IncomingResult := do
  skipStr16
  skipStr16
  let errorCode ← readStr16
  if errorCode ≠ [] then readFailure errorCode
  else
    if ← readFlag then skipErrorDetail
    readSuccess errorCode

/-! ## The generated codec -/

/-- A `MetadataValue` under the schema. -/
inductive Decoded where
  | text (s : Str)
  | number (v : ℤ)
  | boolean (b : Bool)
  | double (bits : UInt64)
  | object (payload : SerializedObject)
  deriving DecidableEq, Repr

def decodeMetadataValue : Reader Decoded := do
  match ← readU8 with
  | 1 => return .text (← readStr32)
  | 2 => return .number (← readI64)
  | 3 => return .boolean (← readFlag)
  | 4 => return .double (UInt64.ofNat (← readU64))
  | 5 => return .object (← readPayload)
  | _ => failure

def decodeEntries : ℕ → Reader (List (Str × Decoded))
  | 0 => pure []
  | n + 1 => do
      let key ← readStr16
      let value ← decodeMetadataValue
      let rest ← decodeEntries n
      return (key, value) :: rest

def decodeMetadata : Reader (List (Str × Decoded)) := do decodeEntries (← readU16)

/-- What `metadataFromEntries` makes of a value. -/
def Decoded.converted : Decoded → Option Received
  | .text s => some (.text s)
  | .number v => some (.number (Binary64.round v))
  | .boolean b => some (.boolean b)
  | .double bits => some (.double bits)
  | .object _ => none

def metadataFromEntries (entries : List (Str × Decoded)) : List (Str × Received) :=
  entries.foldl (fun out entry => define entry.1 entry.2.converted out) []

/-! ## The two readers of metadata agree -/

section Agree
variable {bytes rest : Bytes}

theorem skip_of_readSlice {n : ℕ} {slice : Bytes} (h : readSlice n bytes = some (slice, rest)) :
    skip n bytes = some ((), rest) := by
  unfold readSlice at h
  unfold skip
  split_ifs at h ⊢
  cases h
  rfl

theorem skip_of_readUtf8 {n : ℕ} {s : Str} (h : readUtf8 true n bytes = some (s, rest)) :
    skip n bytes = some ((), rest) := by
  obtain ⟨slice, middle, hslice, htext⟩ := bind_eq_some.mp h
  have hrest : middle = rest := by
    change ((text true slice).bind fun s => some (s, middle)) = _ at htext
    obtain ⟨t, -, ht⟩ := Option.bind_eq_some_iff.mp htext
    cases ht
    rfl
  rw [← hrest]
  exact skip_of_readSlice hslice

theorem skipStr16_of_readStr16 {s : Str} (h : readStr16 bytes = some (s, rest)) :
    skipStr16 bytes = some ((), rest) := by
  obtain ⟨len, middle, hlen, htext⟩ := bind_eq_some.mp h
  exact (bind_of_eq hlen _).trans (skip_of_readUtf8 htext)

theorem skipPayload_of_readPayload {payload : SerializedObject}
    (h : readPayload bytes = some (payload, rest)) :
    skipPayload bytes = some ((), rest) := by
  obtain ⟨type, middle, htype, h⟩ := bind_eq_some.mp h
  obtain ⟨revision, middle', hrevision, h⟩ := bind_eq_some.mp h
  obtain ⟨data, middle'', hdata, h⟩ := bind_eq_some.mp h
  obtain ⟨len, after, hlen, hslice⟩ := bind_eq_some.mp hdata
  cases h
  calc skipPayload bytes
    _ = (skipStr16 >>= fun _ => readU32 >>= skip) middle :=
        bind_of_eq (skipStr16_of_readStr16 htype) _
    _ = (readU32 >>= skip) middle' := bind_of_eq (skipStr16_of_readStr16 hrevision) _
    _ = skip len after := bind_of_eq hlen _
    _ = some ((), rest) := skip_of_readSlice hslice

/-- A value that the codec decodes is read as it is converted. -/
theorem readValue_of_decode {value : Decoded} (h : decodeMetadataValue bytes = some (value, rest)) :
    readValue bytes = some (value.converted, rest) := by
  obtain ⟨tag, middle, htag, h⟩ := bind_eq_some.mp h
  refine (bind_of_eq htag _).trans ?_
  split at h
  · obtain ⟨s, after, hs, h⟩ := bind_eq_some.mp h
    cases h
    exact bind_of_eq hs _
  · obtain ⟨v, after, hv, h⟩ := bind_eq_some.mp h
    obtain ⟨lo, after', hlo, hv⟩ := bind_eq_some.mp hv
    obtain ⟨hi, after'', hhi, hv⟩ := bind_eq_some.mp hv
    cases hv
    cases h
    refine (bind_of_eq hlo _).trans ((bind_of_eq hhi _).trans ?_)
    simp only [joinHalves_eq (readU32_lt hhi), Decoded.converted]
    rfl
  · obtain ⟨b, after, hb, h⟩ := bind_eq_some.mp h
    obtain ⟨n, after', hn, hflag⟩ := bind_eq_some.mp hb
    cases h
    split_ifs at hflag
    · cases hflag
    · cases hflag
      exact bind_of_eq hn _
  · obtain ⟨bits, after, hbits, h⟩ := bind_eq_some.mp h
    cases h
    exact bind_of_eq hbits _
  · obtain ⟨payload, after, hpayload, h⟩ := bind_eq_some.mp h
    cases h
    exact bind_of_eq (skipPayload_of_readPayload hpayload) _
  · cases h

theorem readEntries_of_decode {n : ℕ} {entries : List (Str × Decoded)}
    (h : decodeEntries n bytes = some (entries, rest)) (out : List (Str × Received)) :
    readEntries n out bytes =
      some (entries.foldl (fun out entry => define entry.1 entry.2.converted out) out, rest) := by
  induction n generalizing bytes entries out with
  | zero =>
      cases h
      rfl
  | succ n ih =>
      obtain ⟨key, middle, hkey, h⟩ := bind_eq_some.mp h
      obtain ⟨value, middle', hvalue, h⟩ := bind_eq_some.mp h
      obtain ⟨more, middle'', hmore, h⟩ := bind_eq_some.mp h
      cases h
      refine (bind_of_eq hkey _).trans ((bind_of_eq (readValue_of_decode hvalue) _).trans ?_)
      exact ih hmore _

theorem readMetadata_of_decode {entries : List (Str × Decoded)}
    (h : decodeMetadata bytes = some (entries, rest)) :
    readMetadata bytes = some (metadataFromEntries entries, rest) := by
  obtain ⟨n, middle, hn, h⟩ := bind_eq_some.mp h
  exact (bind_of_eq hn _).trans (readEntries_of_decode h [])

end Agree

/-! ## What is sent comes back -/

/-- A string that fits, a safe integer, a boolean, or nothing. -/
def Value.Sendable : Value → Prop
  | .text s => Fits32 s
  | .integer v => Binary64.Safe v
  | .boolean _ => True
  | .nullish => True
  | _ => False

instance : DecidablePred Value.Sendable
  | .text s => inferInstanceAs (Decidable (Fits32 s))
  | .integer v => inferInstanceAs (Decidable (Binary64.Safe v))
  | .boolean _ | .nullish => isTrue trivial
  | .double _ | .bigint _ | .other _ => isFalse id

/-- What comes back of a value. -/
def Value.received : Value → Option Received
  | .text s => some (.text s)
  | .integer v => some (.number v)
  | .boolean b => some (.boolean b)
  | _ => none

/-- Entries without the values that are null or undefined. -/
def receivedEntries (entries : List (Str × Value)) : List (Str × Received) :=
  entries.filterMap fun entry => entry.2.received.map fun value => (entry.1, value)

def received : Option Metadata → List (Str × Received)
  | none => []
  | some metadata => receivedEntries metadata.entries

def SendableMetadata : Option Metadata → Prop
  | none => True
  | some metadata =>
      (∀ entry ∈ metadata.entries, entry.2.Sendable ∧ (entry.2 ≠ .nullish → Fits16 entry.1)) ∧
        (received (some metadata)).length ≤ 0xffff

def SendablePayload (payload : SerializedObject) : Prop :=
  Fits16 payload.type ∧ Fits16 payload.revision ∧ payload.data.length ≤ 0xffffffff

structure SendableMessage (message : OutgoingMessage) : Prop where
  messageId : Fits16 message.messageId
  name : Fits16 message.name
  timestamp : Binary64.Safe message.timestamp
  payload : SendablePayload message.payload
  metadata : SendableMetadata message.metadata

/-- A text whose bytes fit a `str16` field, which is not read back. -/
def Room16 (s : Str) : Prop := (encode s).length ≤ 0xffff

instance : DecidablePred Room16 := fun _ => Nat.decLe _ _

structure SendableResult (result : OutgoingResult) : Prop where
  requestId : Room16 result.requestId
  errorCode : Fits16 result.errorCode
  errorMessage : Fits32 result.errorMessage
  location : Room16 result.location
  payload : ∀ payload ∈ result.payload, SendablePayload payload

section Carry
variable {s : Str}

/-- The key and the value of an entry. -/
def readEntry : Reader (Str × Option Received) := do
  let key ← readStr16
  let value ← readValue
  return (key, value)

theorem carried_i64Number {v : ℤ} (h : Binary64.Safe v) :
    Carried (writeI64Number v)
      (do let lo ← readU32; let hi ← readU32; return some (Received.number (joinHalves lo hi)))
      (some (.number v)) := by
  rw [writeI64Number, if_pos h]
  have hboth := gives_i64 v fun lo hi => some (Received.number (joinHalves lo hi))
  rw [joinHalves_i64 h] at hboth
  exact .write 0 hboth

/-- An entry that is sent is read as it comes back; the others are not written. -/
theorem carried_entry {key : Str} {value : Value} (hvalue : value.Sendable)
    (hkey : value ≠ .nullish → Fits16 key) :
    (value.received = none ∧ writeEntry key value = none) ∨
      ∃ body r, value.received = some r ∧ writeEntry key value = some body ∧
        Carried body readEntry (key, some r) := by
  have hentry : ∀ {tail : Body} {r : Received}, value ≠ .nullish → Carried tail readValue (some r) →
      Carried ((writeStr16 key "MessageMetadata.key").andThen tail) readEntry (key, some r) := by
    intro tail r hne htail
    exact (carried_str16 (hkey hne) _).bind (htail.then (.pure _))
  cases value with
  | text s =>
      refine .inr ⟨_, _, rfl, rfl, hentry nofun ?_⟩
      exact (carried_u8 (by decide)).bind ((carried_str32 hvalue _).then (.pure _))
  | integer v =>
      refine .inr ⟨_, _, rfl, rfl, hentry nofun ?_⟩
      exact (carried_u8 (by decide)).bind (carried_i64Number hvalue)
  | boolean b =>
      refine .inr ⟨_, _, rfl, rfl, hentry nofun ?_⟩
      refine (carried_u8 (by decide)).bind ?_
      cases b with
      | false => exact (carried_u8 (by decide)).then (.pure _)
      | true => exact (carried_u8 (by decide)).then (.pure _)
  | nullish => exact .inl ⟨rfl, rfl⟩
  | double bits => exact hvalue.elim
  | bigint v => exact hvalue.elim
  | other json => exact hvalue.elim

theorem carried_entries {entries : List (Str × Value)}
    (h : ∀ entry ∈ entries, entry.2.Sendable ∧ (entry.2 ≠ .nullish → Fits16 entry.1)) :
    (entries.filterMap fun entry => writeEntry entry.1 entry.2).length =
      (receivedEntries entries).length ∧
      ∀ out, Carried (writeEach id (entries.filterMap fun entry => writeEntry entry.1 entry.2))
        (readEntries (receivedEntries entries).length out)
        ((receivedEntries entries).foldl (fun out entry =>
          OrderedMap.set entry.1 entry.2 out) out) := by
  induction entries with
  | nil => exact ⟨rfl, fun out => .write 0 (.pure out)⟩
  | cons entry entries ih =>
      obtain ⟨hvalue, hkey⟩ := h entry List.mem_cons_self
      obtain ⟨hlength, hrest⟩ := ih fun e he => h e (List.mem_cons_of_mem _ he)
      unfold receivedEntries at hlength hrest ⊢
      rcases carried_entry hvalue hkey with ⟨hnone, hwrite⟩ | ⟨body, r, hsome, hwrite, hbody⟩
      · simp only [List.filterMap_cons, hwrite, hnone, Option.map_none]
        exact ⟨hlength, hrest⟩
      · simp only [List.filterMap_cons, hwrite, hsome, Option.map_some, List.length_cons, hlength,
          List.foldl_cons, true_and]
        intro out
        have hnext := hbody.bind (f := fun entry => readEntries _ (define entry.1 entry.2 out))
          (hrest (OrderedMap.set entry.1 r out))
        simp only [readEntry, bind_assoc, pure_bind] at hnext
        exact hnext

theorem keys_receivedEntries (entries : List (Str × Value)) :
    ((receivedEntries entries).map Prod.fst).Sublist (entries.map Prod.fst) := by
  induction entries with
  | nil => exact .slnil
  | cons entry entries ih =>
      unfold receivedEntries at ih ⊢
      cases hvalue : entry.2.received with
      | none =>
          simp only [List.filterMap_cons, hvalue, Option.map_none]
          exact ih.cons _
      | some r =>
          simp only [List.filterMap_cons, hvalue, Option.map_some]
          exact ih.cons_cons _

theorem carried_metadata {metadata : Option Metadata} (h : SendableMetadata metadata) :
    Carried (writeMetadata metadata) readMetadata (received metadata) := by
  cases metadata with
  | none =>
      exact .write 0 ((gives_u16 (by decide)).bind (f := fun n => readEntries n []) (.pure []))
  | some metadata =>
      obtain ⟨hentries, hcount⟩ := h
      obtain ⟨hlength, hcarried⟩ := carried_entries hentries
      obtain ⟨bytes, hbytes, hread⟩ := hcarried []
      have hnodup : (([] ++ receivedEntries metadata.entries).map Prod.fst).Nodup :=
        metadata.nodup.sublist (keys_receivedEntries metadata.entries)
      rw [OrderedMap.foldl_set [] hnodup, List.nil_append] at hread
      refine ⟨u16 (sentEntries metadata).length ++ bytes, ?_, ?_⟩
      · simp only [writeMetadata]
        rw [if_neg (by rw [sentEntries, hlength]; exact Nat.not_lt.mpr hcount)]
        exact content_patched hbytes
      · rw [sentEntries, hlength]
        exact (gives_u16 hcount).bind hread

theorem carried_payload {payload : SerializedObject} (h : SendablePayload payload) :
    Carried (writePayload payload) readPayload payload :=
  (carried_str16 h.1 _).bind
    ((carried_str16 h.2.1 _).bind ((carried_bytes32 h.2.2 _).then (.pure payload)))

theorem written_str16 (h : Room16 s) (ctx : String) :
    (writeStr16 s ctx).content = .ok (u16 (encode s).length ++ encode s) := by
  simp only [writeStr16, writeUtf8, textBytes_eq]
  rw [if_neg (Nat.not_lt.mpr h)]
  rfl

theorem carried_skipStr16 (h : Room16 s) (ctx : String) : Carried (writeStr16 s ctx) skipStr16 () :=
  ⟨_, written_str16 h ctx, (gives_u16 h).bind (gives_skip _)⟩

/-- A message comes back, whatever its instructions and its sender. -/
theorem message_begins {message : OutgoingMessage} (h : SendableMessage message)
    (instructions : Bytes) {clientId componentName : Str} (hclient : Room16 clientId)
    (hcomponent : Room16 componentName) :
    Begins (writeMessage message instructions clientId componentName) readMessage
      ⟨message.messageId, message.name, message.timestamp, message.payload,
        received message.metadata⟩ := by
  have htail : ∃ tail,
      ((writeBytes instructions).andThen ((writeStr16 clientId "Command.client_id").andThen
      (writeStr16 componentName "Command.component_name"))).content = .ok tail :=
    ⟨_, content_andThen rfl
      (content_andThen (written_str16 hclient _) (written_str16 hcomponent _))⟩
  refine (carried_str16 h.messageId _).begins ((carried_str16 h.name _).begins
    ((carried_millis h.timestamp).begins ((carried_payload h.payload).begins ?_)))
  exact ((carried_metadata h.metadata).leads htail).then (.pure _)

/-- What comes back of a result: the error, or the payload. -/
def OutgoingResult.received (result : OutgoingResult) : IncomingResult :=
  if result.errorCode = [] then ⟨[], [], result.payload⟩
  else ⟨result.errorCode, result.errorMessage, none⟩

theorem written_optionalPayload {payload : Option SerializedObject}
    (h : ∀ p ∈ payload, SendablePayload p) :
    ∃ tail, (writeOptionalPayload payload).content = .ok tail := by
  cases payload with
  | none => exact ⟨_, rfl⟩
  | some payload =>
      obtain ⟨tail, htail⟩ := (carried_payload (h payload rfl)).written
      exact ⟨_, content_andThen rfl htail⟩

theorem begins_payload {payload : Option SerializedObject} (h : ∀ p ∈ payload, SendablePayload p)
    {next : Body} (hnext : ∃ tail, next.content = .ok tail) :
    Begins ((writeOptionalPayload payload).andThen next) (readSuccess []) ⟨[], [], payload⟩ := by
  refine Carried.leads ?_ hnext
  cases payload with
  | none => exact (carried_flag false).then (.pure _)
  | some payload =>
      exact (carried_flag true).bind ((carried_payload (h payload rfl)).then (.pure _))

/-- A result comes back. -/
theorem result_begins {result : OutgoingResult} (h : SendableResult result) :
    Begins (writeResult result) readResult result.received := by
  have htail : ∃ tail, ((writeU16 0).andThen (writeU16 0)).content = .ok tail := ⟨_, rfl⟩
  have hempty : Room16 [] := Nat.zero_le _
  refine (carried_skipStr16 hempty _).begins ((carried_skipStr16 h.requestId _).begins
    ((carried_str16 h.errorCode _).begins ?_))
  by_cases hcode : result.errorCode = []
  · simp only [hcode, writeErrorDetail, OutgoingResult.received, if_true, ne_eq,
      not_true_eq_false, if_false]
    exact (carried_flag false).begins (begins_payload h.payload htail)
  · simp only [hcode, writeErrorDetail, OutgoingResult.received, ne_eq, not_false_eq_true,
      if_true, if_false]
    obtain ⟨payload, hpayload⟩ := written_optionalPayload h.payload
    obtain ⟨tail, htail⟩ := htail
    have hdetail :
        Begins ((writeU8 1).andThen ((writeStr32 result.errorMessage "ErrorDetail.message").andThen
        ((writeStr16 result.location "ErrorDetail.location").andThen
          ((writeLen16 0 "ErrorDetail.details").andThen
            (writeStr16 result.errorCode "ErrorDetail.error_code")))))
              (readFailure result.errorCode)
        ⟨result.errorCode, result.errorMessage, none⟩ := by
      refine (carried_flag true).begins (Begins.then ?_ (.pure _))
      exact (carried_str32 h.errorMessage _).leads ⟨_, content_andThen (written_str16 h.location _)
        (content_andThen rfl (written_str16 h.errorCode.2 _))⟩
    obtain ⟨bytes, more, hbytes, hread⟩ := hdetail
    refine ⟨bytes, more ++ (payload ++ tail), ?_, hread⟩
    rw [content_andThen hbytes (content_andThen hpayload htail), List.append_assoc]

end Carry

/-- Messages and results come back as they were sent, and the two readers of metadata agree. -/
theorem messages_come_back :
    (∀ (message : OutgoingMessage) (instructions : Bytes) (clientId componentName : Str),
        SendableMessage message → Room16 clientId → Room16 componentName →
          ∃ bytes rest, (writeMessage message instructions clientId componentName).content =
            .ok bytes ∧
            readMessage bytes = some
              (⟨message.messageId, message.name, message.timestamp, message.payload,
                received message.metadata⟩,
                rest)) ∧
      (∀ result : OutgoingResult, SendableResult result →
        ∃ bytes rest, (writeResult result).content = .ok bytes ∧
          readResult bytes = some (result.received, rest)) ∧
      ∀ bytes entries rest, decodeMetadata bytes = some (entries, rest) →
        readMetadata bytes = some (metadataFromEntries entries, rest) := by
  refine ⟨?_, ?_, fun bytes entries rest => readMetadata_of_decode⟩
  · intro message instructions clientId componentName h hclient hcomponent
    exact (message_begins h instructions hclient hcomponent).reads
  · intro result h
    exact (result_begins h).reads

/-- A command with four entries of metadata, one of which is not sent. -/
def shipOrder : OutgoingMessage :=
  ⟨[0x69], [0x6e], 5, ⟨[0x74], [0x31], [1, 2]⟩,
    some ⟨[([0x75], .text [0xe9]), ([0x76], .integer (-7)), ([0x77], .boolean true),
      ([0x78], .nullish)], by decide⟩⟩

/-- An error with its message and its place. -/
def refusal : OutgoingResult := ⟨[0x69], [0x45], [0x6e, 0x6f], [0x6c], none⟩

/-- Two entries, and one byte after them. -/
def encodedMetadata : Bytes := [2, 0, 1, 0, 0x61, 1, 1, 0, 0, 0, 0x62, 1, 0, 0x63, 3, 1, 0xff]

theorem command_refusal_and_metadata_come_back :
    (∃ bytes rest, (writeMessage shipOrder [0, 0] [0x63] [0x64]).content = .ok bytes ∧
        readMessage bytes = some (⟨[0x69], [0x6e], 5, ⟨[0x74], [0x31], [1, 2]⟩,
          [([0x75], .text [0xe9]), ([0x76], .number (-7)), ([0x77], .boolean true)]⟩, rest)) ∧
      (∃ bytes rest, (writeResult refusal).content = .ok bytes ∧
        readResult bytes = some (⟨[0x45], [0x6e, 0x6f], none⟩, rest)) ∧
      readMetadata encodedMetadata = some ([([0x61], .text [0x62]), ([0x63], .boolean true)],
        [0xff]) := by
  obtain ⟨hmessages, hresults, hreaders⟩ := messages_come_back
  refine ⟨hmessages shipOrder [0, 0] [0x63] [0x64] ?_ (by decide +kernel) (by decide +kernel),
    hresults refusal ?_, ?_⟩
  · exact
      { messageId := show Fits16 [0x69] by decide +kernel
        name := show Fits16 [0x6e] by decide +kernel
        timestamp := show Binary64.Safe 5 by decide
        payload := ⟨by decide +kernel, by decide +kernel, by decide⟩
        metadata := ⟨by decide +kernel, by decide⟩ }
  · exact
      { requestId := show Room16 [0x69] by decide +kernel
        errorCode := show Fits16 [0x45] by decide +kernel
        errorMessage := show Fits32 [0x6e, 0x6f] by decide +kernel
        location := show Room16 [0x6c] by decide +kernel
        payload := nofun }
  · exact hreaders encodedMetadata [([0x61], .text [0x62]), ([0x63], .boolean true)] [0xff]
      (by decide +kernel)

/-- A message whose identifier is half of a surrogate pair comes back with U+FFFD. -/
theorem message_lone_surrogate_lost :
    ¬ ∃ bytes rest, (writeMessage ⟨[0xd800], [], 0, ⟨[], [], []⟩, none⟩ [0, 0] [] []).content =
      .ok bytes ∧
      readMessage bytes = some (⟨[0xd800], [], 0, ⟨[], [], []⟩, []⟩, rest) := by
  rintro ⟨bytes, rest, hbytes, hread⟩
  have hback :
      ((writeMessage ⟨[0xd800], [], 0, ⟨[], [], []⟩, none⟩ [0, 0] [] []).content.toOption.bind
      fun bytes => readMessage bytes).map (fun message => message.1.messageId) = some [0xfffd] := by
    decide +kernel
  rw [hbytes, Except.toOption, Option.bind_some, hread, Option.map_some] at hback
  have hunit : (0xd800 : UInt16) = 0xfffd := List.head_eq_of_cons_eq (Option.some.inj hback)
  exact absurd hunit (by decide)

end Kronos.KronosDb.NativeMessages
