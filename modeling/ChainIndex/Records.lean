import ChainIndex.Event
import ChainIndex.Json.Reader
import ChainIndex.Json.Writer
import ChainIndex.Settings

/-!
# Records

How blocks, pointers, settings and phases are written as JSON and read back.

A record is written as an object with its fields in a fixed order.  It is read
from an object or from an array, as described with `Json.slots?`.  A field may be
absent only if it has a default.
-/

namespace ChainIndex

open Json (ofMembers ofText ofWord ofInt ofNat)

def Json.required (read : Json → Option α) (slot : Option Json) : Option α :=
  slot.bind read

def Json.defaulting (standard : α) (read : Json → Option α) : Option Json → Option α
  | none => some standard
  | some json => read json

open Json (required defaulting)

/-!
# Blocks
-/

namespace Header

def toJson (header : Header) : Json :=
  ofMembers [("hash", ofText header.hash), ("prev_hash", .ofOption ofText header.parent),
    ("height", ofWord header.height), ("timestamp", ofInt header.timestamp.toInt)]

def ofJson? (json : Json) : Option Header :=
  match json.slots? ["hash", "prev_hash", "height", "timestamp"] with
  | some [hash, parent, height, timestamp] => do
      let hash ← required Json.text? hash
      let parent ← defaulting none (Json.optional? Json.text?) parent
      let height ← required Json.word? height
      let timestamp ← required Json.signedWord? timestamp
      return { hash, parent, height, timestamp }
  | _ => none

end Header

namespace Transaction

def toJson (transaction : Transaction) : Json :=
  ofMembers [("txid", ofText transaction.id),
    ("raw", .array (transaction.raw.map fun b => ofNat b.toNat))]

def ofJson? (json : Json) : Option Transaction :=
  match json.slots? ["txid", "raw"] with
  | some [id, raw] => do
      let id ← required Json.text? id
      let raw ← defaulting [] (Json.items? Json.byte?) raw
      return { id, raw }
  | _ => none

end Transaction

namespace Block

def toJson (block : Block) : Json :=
  ofMembers [("header", block.header.toJson),
    ("transactions", .array (block.transactions.map Transaction.toJson))]

def ofJson? (json : Json) : Option Block :=
  match json.slots? ["header", "transactions"] with
  | some [header, transactions] => do
      let header ← required Header.ofJson? header
      let transactions ← required (Json.items? Transaction.ofJson?) transactions
      return { header, transactions }
  | _ => none

end Block

namespace Pointer

def toJson (pointer : Pointer) : Json :=
  ofMembers [("hash", ofText pointer.hash), ("height", ofWord pointer.height)]

def ofJson? (json : Json) : Option Pointer :=
  match json.slots? ["hash", "height"] with
  | some [hash, height] => do
      let hash ← required Json.text? hash
      let height ← required Json.word? height
      return { hash, height }
  | _ => none

def write (pointer : Pointer) : Bytes :=
  pointer.toJson.write

def read? (bytes : Bytes) : Option Pointer :=
  (Json.read? bytes).bind ofJson?

end Pointer

/-!
# Tracks and phases
-/

def Track.ofJson? (json : Json) : Option Track :=
  json.variant?.bind fun name => [Track.concurrent, .serial].find? fun track => track.text = name

namespace Phase

/-- The name of a phase as a variant, as opposed to its text. -/
def variant : Phase → String
  | .idle => "Idle"
  | .syncing => "Syncing"
  | .reorging => "Reorging"
  | .synced => "Synced"
  | .stopping => "Stopping"
  | .stopped => "Stopped"
  | .error => "Error"

def ofVariant? (name : String) : Option Phase :=
  all.find? fun phase => phase.variant = name

def ofJson? (json : Json) : Option Phase :=
  json.variant?.bind ofVariant?

end Phase

/-!
# Settings
-/

namespace Logging

def toJson (logging : Logging) : Json :=
  ofMembers [("level", ofText logging.level),
    ("components", ofMembers (logging.components.map fun entry => (entry.1, ofText entry.2))),
    ("json", .bool logging.json)]

def ofJson? (json : Json) : Option Logging :=
  match json.slots? ["level", "components", "json"] with
  | some [level, components, asJson] => do
      let level ← defaulting standard.level Json.text? level
      let components ← defaulting [] Json.texts? components
      let asJson ← defaulting standard.json Json.bool? asJson
      return ⟨level, componentsOf components, asJson⟩
  | _ => none

end Logging

namespace Settings

def size? (json : Json) : Option Nat :=
  json.word?.map UInt64.toNat

def toJson (settings : Settings) : Json :=
  ofMembers (settings.sizes.map (fun size => (size.1, ofNat size.2)) ++
    [("log", settings.logging.toJson)])

def ofJson? (json : Json) : Option Settings :=
  match json.slots? ["concurrent_group_size", "high_water_mark", "event_capacity",
      "notification_capacity", "log"] with
  | some [groupSize, highWater, eventCapacity, noticeCapacity, logging] => do
      let groupSize ← defaulting standard.groupSize size? groupSize
      let highWater ← defaulting standard.highWater size? highWater
      let eventCapacity ← defaulting standard.eventCapacity size? eventCapacity
      let noticeCapacity ← defaulting standard.noticeCapacity size? noticeCapacity
      let logging ← defaulting standard.logging Logging.ofJson? logging
      return { groupSize, highWater, eventCapacity, noticeCapacity, logging }
  | _ => none

end Settings

end ChainIndex
