import ChainIndex.Fault

/-!
# Settings

How an indexer is set up: how many blocks one concurrent batch may hold, how
many fetched blocks may wait for their serial commit, how many events and
notifications are kept, and what is logged.
-/

namespace ChainIndex

structure Logging where
  level : String
  /-- A level for each component that has its own; no component occurs twice. -/
  components : List (String × String)
  json : Bool
deriving DecidableEq

namespace Logging

def standard : Logging :=
  ⟨"info", [], false⟩

/-- Of the levels given for a component the last one counts. -/
def componentsOf (given : List (String × String)) : List (String × String) :=
  given.foldr (fun entry kept => if kept.any (·.1 = entry.1) then kept else entry :: kept) []

/-- A filter names components by module path, which has no hyphens. -/
def modulePath (component : String) : String :=
  component.map fun c => if c = '-' then '_' else c

def directives (logging : Logging) : String :=
  (logging.components.mergeSort fun a b => a.1 < b.1 || a.1 = b.1).foldl
    (fun text entry => s!"{text},{modulePath entry.1}={entry.2}") logging.level

end Logging

structure Settings where
  groupSize : Nat
  highWater : Nat
  eventCapacity : Nat
  noticeCapacity : Nat
  logging : Logging
deriving DecidableEq

namespace Settings

def standard : Settings :=
  ⟨5, 10, 1024, 64, .standard⟩

def sizes (settings : Settings) : List (String × Nat) :=
  [("concurrent_group_size", settings.groupSize),
    ("high_water_mark", settings.highWater),
    ("event_capacity", settings.eventCapacity),
    ("notification_capacity", settings.noticeCapacity)]

/-- No size may be zero; the first one that is gets reported. -/
def validate (settings : Settings) : Except Fault Unit :=
  match settings.sizes.find? fun size => size.2 = 0 with
  | some size => .error (.zeroSetting size.1)
  | none => .ok ()

end Settings

end ChainIndex
