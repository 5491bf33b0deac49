import Kronos.Lib.OrderedMap
import Kronos.KronosDb.Wire

/-!
# Event records on the wire

Events are written as records `len u32 | flags u8 | position u64 | body`, with
position 0; the server fills the position in and sends the records back behind
their count. `readEvents` decodes the whole frame, `rawBatch` one event at each
call of `take`.

The serializer is a parameter, and so is `empty`, the payload an event without
payload bytes is given. A record of metadata is the list of its properties in
the order in which they are visited; assigning to `__proto__` sets none.
-/
namespace Kronos.KronosDb.NativeRecords
open Kronos.Lib Kronos.Lib.Utf8 Wire
open NativeTransport (Bytes)

variable {P : Type}

def dot : UInt16 := 0x2e

structure QualifiedName where
  «namespace» : Str
  name : Str
  deriving DecidableEq, Repr

def qualifiedNameToString (qn : QualifiedName) : Str := qn.namespace ++ dot :: qn.name

/-- Splits at the last dot. -/
def qualifiedNameFromString (fqn : Str) : QualifiedName :=
  match fqn.reverse.dropWhile (· ≠ dot) with
  | [] => ⟨[], fqn⟩
  | _ :: before => ⟨before.reverse, (fqn.reverse.takeWhile (· ≠ dot)).reverse⟩

/-- A value of an event's metadata; what is neither text nor null is turned into text. -/
inductive MetadataValue where
  | text (s : Str)
  | other (string : Str)
  | nullish
  deriving DecidableEq, Repr

@[ext]
structure Metadata where
  entries : List (Str × MetadataValue)
  nodup : (entries.map Prod.fst).Nodup
  deriving DecidableEq

structure Tag where
  key : Str
  value : Str
  deriving DecidableEq, Repr

structure EventMessage (P : Type) where
  identifier : Str
  name : QualifiedName
  version : Str
  payload : P
  metadata : Metadata
  timestamp : ℤ
  tags : List Tag
  deriving DecidableEq

/-- `serialize` may throw, and so may `deserialize`. -/
structure Serializer (P : Type) where
  serialize : P → Str → Str → Option Bytes
  deserialize : Bytes → Str → Str → Option P

/-! ## Writing -/

structure OutboundEvent (P : Type) where
  event : EventMessage P
  data : Bytes

def outbound (serializer : Serializer P) (events : List (EventMessage P)) :
    Option (List (OutboundEvent P)) :=
  events.mapM fun event =>
    (serializer.serialize event.payload (qualifiedNameToString event.name) event.version).map
      fun data => ⟨event, data⟩

/-- The text of a value, nothing where it is not sent. -/
def MetadataValue.string : MetadataValue → Option Str
  | .text s => some s
  | .other string => some string
  | .nullish => none

def writeEntry (entry : Str × Str) : Body :=
  (writeStr16 entry.1 "metadata key").andThen (writeStr16 entry.2 "metadata value")

def sentEntries (metadata : Metadata) : List (Str × Str) :=
  metadata.entries.filterMap fun entry => entry.2.string.map fun value => (entry.1, value)

def writeMetadata (metadata : Metadata) : Body :=
  let entries := sentEntries metadata
  let inner := writeEach writeEntry entries
  if 0xffff < entries.length then
    (writeU16 0).andThen (inner.andThen
      (.throws ("metadata: " ++ toString entries.length ++ " entries exceed the u16 limit")))
  else .patched (u16 0) (fun _ => u16 entries.length) (fun _ => rfl) inner

def writeTag (tag : Tag) : Body :=
  (writeStr16 tag.key "tag key").andThen (writeStr16 tag.value "tag value")

def writeTags (tags : List Tag) : Body :=
  (writeLen16 tags.length "event tags").andThen (writeEach writeTag tags)

/-- The event behind its position: identifier through payload. -/
def writeBody (event : EventMessage P) (data : Bytes) : Body :=
  (writeStr16 event.identifier "event identifier").andThen
    ((writeStr16 (qualifiedNameToString event.name) "event name").andThen
      ((writeStr16 event.version "event version").andThen
        ((writeMillis event.timestamp).andThen
          ((writeMetadata event.metadata).andThen
            ((writeTags event.tags).andThen (writeBytes32 data "event payload"))))))

/-- A record with its position filled in. -/
def writeRecordAt (position : ℕ) (event : EventMessage P) (data : Bytes) : Body :=
  .patched (u32 0) (fun record => u32 record.length) (fun _ => rfl)
    ((writeU8 0).andThen ((writeU64 position).andThen (writeBody event data)))

def writeRecord (event : EventMessage P) (data : Bytes) : Body := writeRecordAt 0 event data

/-- The records as the server sends them, each with its position. -/
def writeRecordsAt (records : List (ℕ × OutboundEvent P)) : Body :=
  (writeLen32 records.length "events").andThen
    (writeEach (fun record => writeRecordAt record.1 record.2.event record.2.data) records)

def writeRecords (events : List (OutboundEvent P)) : Body :=
  (writeLen32 events.length "events").andThen
    (writeEach (fun event => writeRecord event.event event.data) events)

/-! ## Reading -/

/-- Tag text is never an error. -/
def readTagText : Reader Str := do readUtf8 false (← readU16)

/-- The cache of split names; whatever is in it was split. -/
structure Names where
  entries : List (Str × QualifiedName)
  split : ∀ fqn name, OrderedMap.get fqn entries = some name → name = qualifiedNameFromString fqn

/-- `qualified`: the cached name, else the name that goes into the cache, which is cleared when
it is full. -/
def Names.qualified (names : Names) (fqn : Str) : QualifiedName × Names :=
  match OrderedMap.get fqn names.entries with
  | some name => (name, names)
  | none =>
      let entries := if 4096 ≤ names.entries.length then [] else names.entries
      (qualifiedNameFromString fqn,
        ⟨OrderedMap.set fqn (qualifiedNameFromString fqn) entries, by
          intro key name hname
          rcases OrderedMap.get_set_cases hname with ⟨rfl, rfl⟩ | ⟨-, hold⟩
          · rfl
          · by_cases hfull : 4096 ≤ names.entries.length
            · simp only [entries, if_pos hfull] at hold
              cases hold
            · simp only [entries, if_neg hfull] at hold
              exact names.split key name hold⟩)

/-- The key an assignment sets no property for. -/
def proto : Str := [0x5f, 0x5f, 0x70, 0x72, 0x6f, 0x74, 0x6f, 0x5f, 0x5f]

def Metadata.assign (metadata : Metadata) (key value : Str) : Metadata :=
  if key = proto then metadata
  else ⟨OrderedMap.set key (.text value) metadata.entries, OrderedMap.nodup_keys_set metadata.nodup⟩

def readEntries : ℕ → Metadata → Reader Metadata
  | 0, metadata => pure metadata
  | n + 1, metadata => do
      let key ← readStr16
      let value ← readStr16
      readEntries n (metadata.assign key value)

def readTags : ℕ → Reader (List Tag)
  | 0 => pure []
  | n + 1 => do
      let key ← readTagText
      let value ← readTagText
      let rest ← readTags n
      return ⟨key, value⟩ :: rest

def readMetadata : Reader Metadata := do readEntries (← readU16) ⟨[], List.nodup_nil⟩

def readTagList : Reader (List Tag) := do readTags (← readU16)

section Decoding
variable (names : Names) (serializer : Serializer P) (empty : P)

def readEventBody : Reader (EventMessage P) := do
  let identifier ← readStr16
  let name ← readStr16
  let version ← readStr16
  let timestamp ← readMillis
  let metadata ← readMetadata
  let tags ← readTagList
  let data ← readBytes32
  let payload ← StateT.lift (if 0 < data.length then serializer.deserialize data name version
      else some empty)
  return ⟨identifier, (names.qualified name).1, version, payload, metadata, timestamp, tags⟩

/-- The rest of a record after its flags: its position and event, nothing where it is below the
floor. `wanted`: the position is read, and not only stepped over. -/
def readPositioned (wanted : Bool) (floor : Option ℕ) : Reader (Option (ℕ × EventMessage P)) := do
  if wanted || floor.isSome then
    let sequence ← readU64
    if floor.any (sequence < ·) then return none
    else return some (sequence, ← readEventBody names serializer empty)
  else
    modify (List.drop 8)
    return some (0, ← readEventBody names serializer empty)

/-- A record that is not wanted is stepped over; an event ends where its record does. -/
def finishRecord (after : Bytes) : Option (ℕ × EventMessage P) →
    Reader (Option (ℕ × EventMessage P))
  | none => fun _ => some (none, after)
  | some event => fun rest => if rest.length = after.length then some (some event, rest) else none

/-- `readRecordAt`; nothing for a record that is not an event. -/
def readRecordAt (sequenced : Bool) (floor : Option ℕ) : Reader (Option (ℕ × EventMessage P)) := do
  let len ← readU32
  let rest ← get
  if len = 0 ∨ rest.length < len then failure
  else if (← readU8) ≠ 0 then finishRecord (rest.drop len) none
  else
    let event ← readPositioned names serializer empty sequenced floor
    finishRecord (rest.drop len) event

def readEach (floor : Option ℕ) : ℕ → Reader (List (EventMessage P))
  | 0 => pure []
  | n + 1 => do
      let event ← readRecordAt names serializer empty false floor
      let rest ← readEach floor n
      return (event.map Prod.snd).toList ++ rest

/-- The marker at the end of a frame, if there is one. -/
def readMarker (events : List (EventMessage P)) : Reader (List (EventMessage P) × Option ℕ) := do
  if ← readFlag then return (events, some (← readU64)) else return (events, none)

/-- The events of a frame and its marker. -/
def readEvents (floor : Option ℕ) : Reader (List (EventMessage P) × Option ℕ) := do
  let events ← readEach names serializer empty floor (← readU32)
  readMarker events

/-- The loop of `take`, over the records that are left. -/
def takeLoop : ℕ → Reader (Option (ℕ × EventMessage P) × ℕ)
  | 0 => pure (none, 0)
  | left + 1 => do
      match ← readRecordAt names serializer empty true none with
      | some event => return (some event, left)
      | none => takeLoop left

/-- Calls of `take` until the batch is spent. -/
def takeAll : ℕ → ℕ → Reader (List (ℕ × EventMessage P))
  | 0, _ => pure []
  | calls + 1, left => do
      match ← takeLoop names serializer empty left with
      | (some event, left) => do
          let rest ← takeAll calls left
          return event :: rest
      | (none, _) => return []

/-- What `rawBatch` gives, one event after the other. -/
def drain : Reader (List (ℕ × EventMessage P)) := do
  let left ← readU32
  takeAll names serializer empty (left + 1) left

end Decoding

/-! ## Events come back -/

/-- An event that fits the format, whose texts are plain, whose name has no dot, and whose payload
is the empty one if it has no bytes. -/
structure Writable (empty : P) (event : EventMessage P) (data : Bytes) : Prop where
  identifier : Fits16 event.identifier
  name : Fits16 (qualifiedNameToString event.name)
  dotless : dot ∉ event.name.name
  version : Fits16 event.version
  timestamp : Binary64.Safe event.timestamp
  metadata : ∀ entry ∈ event.metadata.entries,
    entry.1 ≠ proto ∧ Fits16 entry.1 ∧ ∃ s, entry.2 = .text s ∧ Fits16 s
  metadataCount : event.metadata.entries.length ≤ 0xffff
  tags : ∀ tag ∈ event.tags, Fits16 tag.key ∧ Fits16 tag.value
  tagCount : event.tags.length ≤ 0xffff
  payload : data.length ≤ 0xffffffff
  emptyPayload : data = [] → event.payload = empty
  record : ∀ body, (writeBody event data).content = .ok body → 9 + body.length ≤ 0xffffffff

section Names

theorem qualified_eq (names : Names) (fqn : Str) :
    (names.qualified fqn).1 = qualifiedNameFromString fqn := by
  unfold Names.qualified
  split
  · rename_i name hname
    exact names.split fqn name hname
  · rfl

theorem qualifiedNameFromString_toString {qn : QualifiedName} (h : dot ∉ qn.name) :
    qualifiedNameFromString (qualifiedNameToString qn) = qn := by
  have hreverse :
      (qualifiedNameToString qn).reverse = qn.name.reverse ++ dot :: qn.namespace.reverse := by
    simp [qualifiedNameToString]
  have hnone : ∀ u ∈ qn.name.reverse, (decide (u ≠ dot)) = true := by
    intro u hu
    refine decide_eq_true ?_
    rintro rfl
    exact h (List.mem_reverse.mp hu)
  have hdrop : (qualifiedNameToString qn).reverse.dropWhile (· ≠ dot) =
      dot :: qn.namespace.reverse := by
    rw [hreverse, List.dropWhile_append_of_pos hnone, List.dropWhile_cons_of_neg (by simp)]
  have htake : (qualifiedNameToString qn).reverse.takeWhile (· ≠ dot) = qn.name.reverse := by
    rw [hreverse, List.takeWhile_append_of_pos hnone, List.takeWhile_cons_of_neg (by simp),
      List.append_nil]
  unfold qualifiedNameFromString
  rw [hdrop, htake]
  simp only [List.reverse_reverse]

end Names

section Carry
variable {names : Names} {serializer : Serializer P} {empty : P} {event : EventMessage P}
    {data : Bytes}

theorem carried_tagText {s : Str} (h : Fits16 s) (ctx : String) :
    Carried (writeStr16 s ctx) readTagText s :=
  carried_utf8 false h.1 (fun _ => gives_u16) h.2 ctx

theorem carried_tags {tags : List Tag} (h : ∀ tag ∈ tags, Fits16 tag.key ∧ Fits16 tag.value) :
    Carried (writeEach writeTag tags) (readTags tags.length) tags := by
  induction tags with
  | nil => exact .write 0 (.pure [])
  | cons tag tags ih =>
      obtain ⟨hkey, hvalue⟩ := h tag List.mem_cons_self
      have hrest := ih fun t ht => h t (List.mem_cons_of_mem _ ht)
      have htag :
          Carried (writeTag tag)
          (do let key ← readTagText; let value ← readTagText; return (key, value))
          (tag.key, tag.value) :=
        (carried_tagText hkey _).bind ((carried_tagText hvalue _).then (.pure _))
      have hboth :=
        htag.bind (f := fun pair =>
          do let rest ← readTags tags.length; return ⟨pair.1, pair.2⟩ :: rest)
        (hrest.then (.pure _))
      simp only [bind_assoc, pure_bind] at hboth
      exact hboth

theorem carried_entries {entries : List (Str × Str)}
    (h : ∀ entry ∈ entries, Fits16 entry.1 ∧ Fits16 entry.2) (metadata : Metadata) :
    Carried (writeEach writeEntry entries) (readEntries entries.length metadata)
      (entries.foldl (fun metadata entry => metadata.assign entry.1 entry.2) metadata) := by
  induction entries generalizing metadata with
  | nil => exact .write 0 (.pure metadata)
  | cons entry entries ih =>
      obtain ⟨hkey, hvalue⟩ := h entry List.mem_cons_self
      have hrest :=
        ih (fun e he => h e (List.mem_cons_of_mem _ he)) (metadata.assign entry.1 entry.2)
      have hentry :
          Carried (writeEntry entry)
          (do let key ← readStr16; let value ← readStr16; return (key, value))
          (entry.1, entry.2) :=
        (carried_str16 hkey _).bind ((carried_str16 hvalue _).then (.pure _))
      have hboth :=
        hentry.bind
        (f := fun pair => readEntries entries.length (metadata.assign pair.1 pair.2)) hrest
      simp only [bind_assoc, pure_bind] at hboth
      exact hboth

/-- Assigning the entries one after the other makes the record of them. -/
theorem foldl_assign {entries : List (Str × Str)} (h : ∀ entry ∈ entries, entry.1 ≠ proto)
    (metadata : Metadata) :
    (entries.foldl (fun metadata entry => metadata.assign entry.1 entry.2) metadata).entries =
      (entries.map fun entry => (entry.1, MetadataValue.text entry.2)).foldl
        (fun out entry => OrderedMap.set entry.1 entry.2 out) metadata.entries := by
  induction entries generalizing metadata with
  | nil => rfl
  | cons entry entries ih =>
      rw [List.foldl_cons, ih fun e he => h e (List.mem_cons_of_mem _ he), Metadata.assign,
        if_neg (h entry List.mem_cons_self)]
      rfl

/-- Entries that are all text are all sent. -/
theorem sentEntries_eq {metadata : Metadata}
    (h : ∀ entry ∈ metadata.entries, ∃ s, entry.2 = .text s) :
    (sentEntries metadata).map (fun entry => (entry.1, MetadataValue.text entry.2)) =
      metadata.entries := by
  obtain ⟨entries, nodup⟩ := metadata
  simp only [sentEntries] at h ⊢
  clear nodup
  induction entries with
  | nil => rfl
  | cons entry entries ih =>
      obtain ⟨s, hs⟩ := h entry List.mem_cons_self
      have hrest := ih fun e he => h e (List.mem_cons_of_mem _ he)
      have hstring : entry.2.string = some s := by
        rw [hs]
        rfl
      simp only [List.filterMap_cons, hstring, Option.map_some, List.map_cons, hrest]
      rw [← hs]

theorem carried_metadata {metadata : Metadata}
    (h : ∀ entry ∈ metadata.entries, entry.1 ≠ proto ∧ Fits16 entry.1 ∧ ∃ s,
      entry.2 = .text s ∧ Fits16 s)
    (hcount : metadata.entries.length ≤ 0xffff) :
    Carried (writeMetadata metadata) readMetadata metadata := by
  have hsent := sentEntries_eq fun entry hentry =>
    (h entry hentry).2.2.imp fun s hs => hs.1
  have hlength : (sentEntries metadata).length = metadata.entries.length := by
    rw [← hsent, List.length_map]
  have hentry : ∀ entry ∈ sentEntries metadata, entry.1 ≠ proto ∧ Fits16 entry.1 ∧
      Fits16 entry.2 := by
    intro entry hmem
    have hin : (entry.1, MetadataValue.text entry.2) ∈ metadata.entries := by
      rw [← hsent]
      exact List.mem_map_of_mem hmem
    obtain ⟨hproto, hkey, s, hs, hfits⟩ := h _ hin
    cases hs
    exact ⟨hproto, hkey, hfits⟩
  obtain ⟨bytes, hbytes, hread⟩ :=
    carried_entries (fun entry hmem => (hentry entry hmem).2) ⟨[], List.nodup_nil⟩
  have hback : (sentEntries metadata).foldl (fun metadata entry => metadata.assign entry.1 entry.2)
      ⟨[], List.nodup_nil⟩ = metadata := by
    apply Metadata.ext
    rw [foldl_assign fun entry hmem => (hentry entry hmem).1, hsent]
    exact OrderedMap.foldl_set [] metadata.nodup
  rw [hback] at hread
  refine ⟨u16 (sentEntries metadata).length ++ bytes, ?_, ?_⟩
  · simp only [writeMetadata]
    rw [if_neg (by omega)]
    exact content_patched hbytes
  · exact (gives_u16 (by omega)).bind hread

theorem carried_body
    (hundo : serializer.serialize event.payload (qualifiedNameToString event.name) event.version =
      some data → serializer.deserialize data (qualifiedNameToString event.name) event.version =
        some event.payload)
    (hdata : serializer.serialize event.payload (qualifiedNameToString event.name) event.version =
      some data)
    (h : Writable empty event data) :
    Carried (writeBody event data) (readEventBody names serializer empty) event := by
  have hpayload : (if 0 < data.length then
      serializer.deserialize data (qualifiedNameToString event.name) event.version
        else some empty) =
        some event.payload := by
    split_ifs with hlength
    · exact hundo hdata
    · rw [h.emptyPayload (List.length_eq_zero_iff.mp (by omega))]
  refine (carried_str16 h.identifier _).bind
    ((carried_str16 h.name _).bind ((carried_str16 h.version _).bind
    ((carried_millis h.timestamp).bind
      ((carried_metadata h.metadata h.metadataCount).bind (Carried.bind
      ((carried_len16 h.tagCount _).bind (carried_tags h.tags))
        ((carried_bytes32 h.payload _).then ?_))))))
  intro rest
  rw [hpayload, qualified_eq, qualifiedNameFromString_toString h.dotless]
  rfl

/-- What a record is read as. -/
def positioned (sequenced : Bool) (floor : Option ℕ) (position : ℕ) (event : EventMessage P) :
    Option (ℕ × EventMessage P) :=
  if floor.any (position < ·) then none
  else some (if sequenced || floor.isSome then position else 0, event)

theorem readRecordAt_eq (names : Names) (serializer : Serializer P) (empty : P) (sequenced : Bool)
    (floor : Option ℕ) {len : ℕ} {bytes rest : Bytes}
    (hlen : readU32 bytes = some (len, 0 :: rest)) (hpos : len ≠ 0) (hin : len ≤ rest.length + 1) :
    readRecordAt names serializer empty sequenced floor bytes =
      (readPositioned names serializer empty sequenced floor >>= finishRecord
        ((0 :: rest).drop len)) rest := by
  rw [readRecordAt]
  refine (bind_of_eq hlen _).trans ((bind_of_eq (a := 0 :: rest) rfl _).trans ?_)
  rw [if_neg (by rw [List.length_cons]; omega)]
  exact bind_of_eq (a := 0) rfl _

/-- The rest of a record is read up to its end, or left where it is not wanted. -/
theorem readPositioned_eq (sequenced : Bool) (floor : Option ℕ) {position : ℕ} {body : Bytes}
    (hposition : position < 18446744073709551616)
    (hbody : Gives body (readEventBody names serializer empty) event) (rest : Bytes) :
    ∃ after, readPositioned names serializer empty sequenced floor
        (u64 position ++ (body ++ rest)) =
        some (positioned sequenced floor position event, after) ∧
      (positioned sequenced floor position event ≠ none → after = rest) := by
  unfold readPositioned positioned
  have hread := gives_u64 hposition (body ++ rest)
  by_cases hwanted : (sequenced || floor.isSome) = true
  · simp only [hwanted, if_true]
    by_cases hbelow : floor.any (position < ·) = true
    · refine ⟨body ++ rest, (bind_of_eq hread _).trans ?_, ?_⟩
      · simp only [hbelow, if_true]
        rfl
      · simp [hbelow]
    · refine ⟨rest, (bind_of_eq hread _).trans ?_, fun _ => rfl⟩
      simp only [hbelow]
      exact bind_of_eq (hbody rest) _
  · have hnone : floor = none := by
      cases floor with
      | none => rfl
      | some floor => simp at hwanted
    subst hnone
    simp only [hwanted, if_false, Option.any_none, Bool.false_eq_true]
    refine ⟨rest, (bind_of_eq (a := ()) rfl _).trans ?_, fun _ => rfl⟩
    exact bind_of_eq (hbody rest) _

theorem carried_record (sequenced : Bool) (floor : Option ℕ) {position : ℕ}
    (hposition : position < 18446744073709551616) (hbody : Carried (writeBody event data)
      (readEventBody names serializer empty) event) (h : Writable empty event data) :
    Carried (writeRecordAt position event data)
      (readRecordAt names serializer empty sequenced floor)
      (positioned sequenced floor position event) := by
  obtain ⟨body, hcontent, hread⟩ := hbody
  have hlength := h.record body hcontent
  refine ⟨u32 (9 + body.length) ++ (0 :: (u64 position ++ body)), ?_, ?_⟩
  · have hinner :
        ((writeU8 0).andThen ((writeU64 position).andThen (writeBody event data))).content =
        .ok ([0] ++ (u64 position ++ body)) := content_andThen rfl (content_andThen rfl hcontent)
    have hsize : (0 :: (u64 position ++ body)).length = 9 + body.length := by
      rw [List.length_cons, List.length_append, length_u64]
      omega
    refine (content_patched hinner).trans ?_
    rw [List.singleton_append, hsize]
  · intro rest
    have hlen := gives_u32 hlength (0 :: (u64 position ++ (body ++ rest)))
    obtain ⟨after, hpositioned, hafter⟩ := readPositioned_eq sequenced floor hposition hread rest
    have hdrop : (0 :: (u64 position ++ (body ++ rest))).drop (9 + body.length) = rest := by
      rw [← List.append_assoc, ← List.cons_append]
      refine List.drop_left' ?_
      rw [List.length_cons, List.length_append, length_u64]
      omega
    have heq := readRecordAt_eq names serializer empty sequenced floor hlen (by omega)
      (by rw [List.length_append, List.length_append, length_u64]; omega)
    rw [List.append_assoc, List.cons_append, List.append_assoc, heq, hdrop]
    refine (bind_of_eq hpositioned _).trans ?_
    cases hresult : positioned sequenced floor position event with
    | none => rfl
    | some result =>
        rw [hafter (by rw [hresult]; exact Option.some_ne_none _)]
        simp [finishRecord]

/-- The records of a frame, each carried by its reader. -/
def Recorded (names : Names) (serializer : Serializer P) (empty : P)
    (record : ℕ × OutboundEvent P) : Prop :=
  ∀ sequenced floor, Carried (writeRecordAt record.1 record.2.event record.2.data)
    (readRecordAt names serializer empty sequenced floor)
      (positioned sequenced floor record.1 record.2.event)

/-- Below a floor a record is not wanted. -/
def above (floor : Option ℕ) (record : ℕ × OutboundEvent P) : Bool := !floor.any (record.1 < ·)

theorem positioned_event (floor : Option ℕ) (record : ℕ × OutboundEvent P) :
    ((positioned false floor record.1 record.2.event).map Prod.snd).toList =
      if above floor record then [record.2.event] else [] := by
  unfold positioned above
  cases hbelow : floor.any (record.1 < ·) with
  | true => rfl
  | false => rfl

theorem carried_each (floor : Option ℕ) {records : List (ℕ × OutboundEvent P)}
    (h : ∀ record ∈ records, Recorded names serializer empty record) :
    Carried (writeEach (fun record => writeRecordAt record.1 record.2.event record.2.data) records)
      (readEach names serializer empty floor records.length)
      ((records.filter (above floor)).map fun record => record.2.event) := by
  induction records with
  | nil => exact .write 0 (.pure [])
  | cons record records ih =>
      have hrest := ih fun r hr => h r (List.mem_cons_of_mem _ hr)
      have hboth := (h record List.mem_cons_self false floor).bind
        (f := fun event => do
          let rest ← readEach names serializer empty floor records.length
          return (event.map Prod.snd).toList ++ rest)
        (hrest.then (.pure _))
      rw [positioned_event] at hboth
      rw [List.filter_cons]
      cases habove : above floor record with
      | true =>
          rw [habove] at hboth
          exact hboth
      | false =>
          rw [habove] at hboth
          exact hboth

theorem positioned_sequenced (position : ℕ) (event : EventMessage P) :
    positioned true none position event = some (position, event) := rfl

theorem carried_takes {records : List (ℕ × OutboundEvent P)}
    (h : ∀ record ∈ records, Recorded names serializer empty record) :
    Carried (writeEach (fun record => writeRecordAt record.1 record.2.event record.2.data) records)
      (takeAll names serializer empty (records.length + 1) records.length)
      (records.map fun record => (record.1, record.2.event)) := by
  induction records with
  | nil => exact .write 0 (.pure [])
  | cons record records ih =>
      have hrest := ih fun r hr => h r (List.mem_cons_of_mem _ hr)
      have hrecord := h record List.mem_cons_self true none
      rw [positioned_sequenced] at hrecord
      have htake : Carried (writeRecordAt record.1 record.2.event record.2.data)
          (takeLoop names serializer empty (records.length + 1)) (some (record.1, record.2.event),
            records.length) :=
        hrecord.then (.pure _)
      exact htake.bind (hrest.then (.pure _))

/-- The end of a frame: whether there is a marker, and which. -/
def markerBytes : Option ℕ → Bytes
  | none => [0]
  | some marker => 1 :: u64 marker

theorem gives_marker {marker : Option ℕ} (h : ∀ m ∈ marker, m < 18446744073709551616)
    (events : List (EventMessage P)) : Gives (markerBytes marker) (readMarker events) (events,
      marker) := by
  intro rest
  cases marker with
  | none => rfl
  | some marker =>
      refine (bind_of_eq (a := true) rfl _).trans ?_
      exact bind_of_eq (gives_u64 (h marker rfl) rest) _

end Carry

theorem mem_of_mapM {α β : Type} {f : α → Option β} {xs : List α} {ys : List β}
    (h : xs.mapM f = some ys) {i : ℕ} {x : α} {y : β} (hx : xs[i]? = some x)
    (hy : ys[i]? = some y) : f x = some y := by
  induction xs generalizing ys i with
  | nil => cases hx
  | cons a xs ih =>
      rw [List.mapM_cons] at h
      obtain ⟨b, hb, h⟩ := Option.bind_eq_some_iff.mp h
      obtain ⟨bs, hbs, h⟩ := Option.bind_eq_some_iff.mp h
      cases h
      cases i with
      | zero =>
          cases hx
          cases hy
          exact hb
      | succ i => exact ih hbs hx hy

/-- The data of an event that was serialized is what the serializer made of its payload. -/
theorem data_of_outbound {serializer : Serializer P} {records : List (ℕ × OutboundEvent P)}
    (h : outbound serializer (records.map fun record => record.2.event) =
      some (records.map Prod.snd))
    {record : ℕ × OutboundEvent P} (hrecord : record ∈ records) :
    serializer.serialize record.2.event.payload (qualifiedNameToString record.2.event.name)
      record.2.event.version = some record.2.data := by
  obtain ⟨i, hi⟩ := List.mem_iff_getElem?.mp hrecord
  have hevent : (records.map fun record => record.2.event)[i]? = some record.2.event := by
    rw [List.getElem?_map, hi]
    rfl
  have hsent : (records.map Prod.snd)[i]? = some record.2 := by
    rw [List.getElem?_map, hi]
    rfl
  obtain ⟨data, hdata, hout⟩ := Option.map_eq_some_iff.mp (mem_of_mapM h hevent hsent)
  rw [← hout]
  exact hdata

/-- Records that were written are read as the events they were written for, whole or one by one,
up to their last byte; with a floor, those at or above it. -/
theorem events_come_back (names : Names) (serializer : Serializer P) (empty : P)
    (hundo : ∀ payload type revision data, serializer.serialize payload type revision = some data →
      serializer.deserialize data type revision = some payload)
    (records : List (ℕ × OutboundEvent P))
    (hout : outbound serializer (records.map fun record => record.2.event) =
      some (records.map Prod.snd))
    (hwritable : ∀ record ∈ records, Writable empty record.2.event record.2.data ∧
      record.1 < 18446744073709551616)
    (hcount : records.length ≤ 0xffffffff) :
    (∀ events : List (OutboundEvent P),
      writeRecords events = writeRecordsAt (events.map fun event => (0, event))) ∧
      ∃ bytes, (writeRecordsAt records).content = .ok bytes ∧
        (∀ floor marker rest, (∀ m ∈ marker, m < 18446744073709551616) →
          readEvents names serializer empty floor (bytes ++ (markerBytes marker ++ rest)) =
            some (((records.filter (above floor)).map fun record => record.2.event, marker),
              rest)) ∧
        ∀ rest, drain names serializer empty (bytes ++ rest) =
          some (records.map fun record => (record.1, record.2.event), rest) := by
  have hrecorded : ∀ record ∈ records, Recorded names serializer empty record := by
    intro record hrecord sequenced floor
    obtain ⟨h, hposition⟩ := hwritable record hrecord
    have hdata := data_of_outbound hout hrecord
    exact carried_record sequenced floor hposition (carried_body (hundo _ _ _ _) hdata h) h
  obtain ⟨body, hbody, -⟩ := carried_each none hrecorded
  obtain ⟨count, hlen, hread⟩ := carried_len32 hcount "events"
  refine ⟨?_, count ++ body, content_andThen hlen hbody, ?_, ?_⟩
  · intro events
    rw [writeRecords, writeRecordsAt, List.length_map, writeEach, writeEach, List.foldr_map]
    rfl
  · intro floor marker rest hmarker
    obtain ⟨body', hbody', heach⟩ := carried_each floor hrecorded
    rw [hbody] at hbody'
    cases hbody'
    have hframe := (hread.bind heach).bind (f := readMarker) (gives_marker hmarker _) rest
    rw [List.append_assoc] at hframe
    simp only [bind_assoc] at hframe
    exact hframe
  · obtain ⟨body', hbody', htakes⟩ := carried_takes hrecorded
    rw [hbody] at hbody'
    cases hbody'
    exact hread.bind htakes

/-- Payloads that are their own bytes. -/
def plainSerializer : Serializer Bytes :=
  ⟨fun payload _ _ => some payload, fun data _ _ => some data⟩

/-- An event of type `n.N` with one entry of metadata and one tag. -/
def plainEvent (name : QualifiedName) : EventMessage Bytes :=
  ⟨[0x69], name, [0x31], [1, 2], ⟨[([0x6b], .text [0xe9])], by decide⟩, 5, [⟨[0x74], [0x75]⟩]⟩

/-- An event `n.N` at position 7 and an event `n.O` at position 9. -/
def plainRecords : List (ℕ × OutboundEvent Bytes) :=
  [(7, ⟨plainEvent ⟨[0x6e], [0x4e]⟩, [1, 2]⟩), (9, ⟨plainEvent ⟨[0x6e], [0x4f]⟩, [1, 2]⟩)]

theorem writable_plainEvent (letter : UInt16) (h : letter ∈ ([0x4e, 0x4f] : List UInt16)) :
    Writable [] (plainEvent ⟨[0x6e], [letter]⟩) [1, 2] := by
  have hname : Fits16 (qualifiedNameToString ⟨[0x6e], [letter]⟩) ∧ dot ∉ [letter] := by
    rcases List.mem_pair.mp h with rfl | rfl <;> decide +kernel
  have hsmall : (writeBody (plainEvent ⟨[0x6e], [letter]⟩) [1, 2]).content.toOption.all
      (fun body => decide (9 + body.length ≤ 0xffffffff)) = true := by
    rcases List.mem_pair.mp h with rfl | rfl <;> decide +kernel
  exact
    { identifier := show Fits16 [0x69] by decide +kernel
      name := hname.1
      dotless := hname.2
      version := show Fits16 [0x31] by decide +kernel
      timestamp := show Binary64.Safe 5 by decide
      metadata := by
        intro entry hentry
        rw [List.mem_singleton.mp hentry]
        exact ⟨by decide, by decide +kernel, _, rfl, by decide +kernel⟩
      metadataCount := Nat.le_of_ble_eq_true rfl
      tags := by
        intro tag htag
        rw [List.mem_singleton.mp htag]
        exact ⟨by decide +kernel, by decide +kernel⟩
      tagCount := Nat.le_of_ble_eq_true rfl
      payload := by decide
      emptyPayload := nofun
      record := by
        intro body hbody
        rw [hbody] at hsmall
        exact of_decide_eq_true hsmall }

/-- Both events are drained; of a read from position 8 on, the second and the marker after it. -/
theorem events_come_back_plain :
    ∃ bytes, (writeRecordsAt plainRecords).content = .ok bytes ∧
      readEvents ⟨[], nofun⟩ plainSerializer [] (some 8) (bytes ++ (markerBytes (some 9) ++ [])) =
        some (([plainEvent ⟨[0x6e], [0x4f]⟩], some 9), []) ∧
      drain ⟨[], nofun⟩ plainSerializer [] (bytes ++ []) =
        some ([(7, plainEvent ⟨[0x6e], [0x4e]⟩), (9, plainEvent ⟨[0x6e], [0x4f]⟩)], []) := by
  have hwritable : ∀ record ∈ plainRecords, Writable [] record.2.event record.2.data ∧
      record.1 < 18446744073709551616 := by
    intro record hrecord
    rcases List.mem_pair.mp hrecord with rfl | rfl
    · exact ⟨writable_plainEvent 0x4e List.mem_cons_self, by decide⟩
    · exact ⟨writable_plainEvent 0x4f (List.mem_cons_of_mem _ List.mem_cons_self), by decide⟩
  obtain ⟨-, bytes, hbytes, hread, hdrain⟩ := events_come_back ⟨[], nofun⟩ plainSerializer []
    (fun payload type revision data hdata => by cases hdata; rfl) plainRecords rfl hwritable
      (by decide)
  refine ⟨bytes, hbytes, hread (some 8) (some 9) [] ?_, hdrain []⟩
  intro m hm
  cases hm
  decide

/-- An event named `b.c` in the namespace `a` comes back as `c` in `a.b`. -/
theorem dotted_event_changes_name :
    ¬ ∃ bytes, (writeRecords [⟨plainEvent ⟨[0x61], [0x62, 0x2e, 0x63]⟩, [1, 2]⟩]).content =
      .ok bytes ∧
      readEvents ⟨[], nofun⟩ plainSerializer [] none (bytes ++ [0]) =
        some (([plainEvent ⟨[0x61], [0x62, 0x2e, 0x63]⟩], none), []) := by
  rintro ⟨bytes, hbytes, hread⟩
  have hback :
      ((writeRecords [⟨plainEvent ⟨[0x61], [0x62, 0x2e, 0x63]⟩, [1, 2]⟩]).content.toOption.bind
      fun bytes => readEvents ⟨[], nofun⟩ plainSerializer [] none (bytes ++ [0])).map
        (fun result => result.1.1.map EventMessage.name) = some [⟨[0x61, 0x2e, 0x62], [0x63]⟩] := by
    decide +kernel
  rw [hbytes, Except.toOption, Option.bind_some, hread, Option.map_some] at hback
  have hname := List.head_eq_of_cons_eq (Option.some.inj hback)
  exact absurd (congrArg QualifiedName.namespace hname) (by decide)

end Kronos.KronosDb.NativeRecords
