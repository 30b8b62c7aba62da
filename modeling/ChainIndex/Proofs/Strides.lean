import ChainIndex.Proofs.CalmHosts
import ChainIndex.Proofs.Mirrors
import ChainIndex.Proofs.Stages

/-!
# Strides

What an indexer does on a host that lets everything through is a list of strides: a block is
put on a track or taken off it, a group of blocks is put on the concurrent track at once, or an
event is told of.  A list of strides says all about what comes of it.  Each batch holds the very
edits that the indexes have for its blocks under the table as it is by then, together with the
tip that it moves to, and the batches and the events come in the order of the list.
-/

namespace ChainIndex

inductive Stride where
  | step (track : Track) (block : Block) (direction : Direction)
  | group (blocks : List Block)
  | tell (event : Event)
deriving DecidableEq

namespace Stride

inductive Leads (host : Host σ) (holding : Holding) : Stride → Holding → Prop where
  | step {track : Track} {block : Block} {direction : Direction} {own : List Edit}
      {pointer : Pointer} :
      host.catalogue.edits track block direction (.clear holding.table) = .ok own →
      Act.destination block direction = .ok pointer →
      Leads host holding (.step track block direction)
        (holding.step track own block direction pointer)
  | group {blocks : List Block} {last : Block} {edits : List Edit} :
      Forward.Gathers host holding.table .concurrent blocks edits → blocks.getLast? = some last →
      Leads host holding (.group blocks) (holding.land .concurrent edits last.pointer)
  | tell {event : Event} : Leads host holding (.tell event) (holding.tell event)

def events : Stride → List Event
  | .step .serial block direction => [Act.report block direction]
  | .tell event => [event]
  | _ => []

def group? : Stride → Option (List Block)
  | .group blocks => some blocks
  | _ => none

def single? : Stride → Option Block
  | .step .serial block .apply => some block
  | _ => none

end Stride

inductive Strides (host : Host σ) (start : Holding) : List Stride → Holding → Prop where
  | stay : Strides host start [] start
  | next {strides : List Stride} {stride : Stride} {holding after : Holding} :
      Strides host start strides holding → stride.Leads host holding after →
      Strides host start (strides ++ [stride]) after

/-!
# What the strides leave
-/

theorem reports_deeds (course : List Entry) : reports (deeds course) = reports course := by
  have hentry (entry : Entry) :
      (if entry.isDeed = true then entry.event? else none) = entry.event? := by
    cases entry with
    | batch edits answer => cases answer <;> rfl
    | _ => rfl
  rw [reports, reports, deeds, List.filterMap_filter]
  simp only [hentry]

theorem reports_landed (edits : List Edit) (answer : Except Halt Unit) (course : List Entry) :
    reports (.batch edits answer :: course) = reports course := by
  have hevent : (Entry.batch edits answer).event? = none := rfl
  rw [reports, List.filterMap_cons_none hevent, reports]

theorem Stride.Leads.reports_eq {host : Host σ} {stride : Stride} {holding after : Holding}
    (h : stride.Leads host holding after) :
    reports after.deeds = reports holding.deeds ++ stride.events := by
  cases h with
  | @step track block direction own pointer _ _ =>
      cases track with
      | concurrent => exact (reports_landed _ _ _).trans (List.append_nil _).symm
      | serial =>
          refine (reports_emitted (Act.report block direction) _).trans ?_
          exact congrArg (· ++ [Act.report block direction]) (reports_landed _ _ _)
  | group _ _ => exact (reports_landed _ _ _).trans (List.append_nil _).symm
  | @tell event => exact reports_emitted event holding.deeds

namespace Strides

variable {host : Host σ} {start holding : Holding} {strides : List Stride}

theorem eq_of_nil (h : Strides host start [] holding) : holding = start := by
  generalize hnone : ([] : List Stride) = strides at h
  cases h with
  | stay => rfl
  | next _ _ => exact absurd hnone (by simp)

theorem of_snoc {stride : Stride} (h : Strides host start (strides ++ [stride]) holding) :
    ∃ before, Strides host start strides before ∧ stride.Leads host before holding := by
  generalize hall : strides ++ [stride] = all at h
  cases h with
  | stay => exact absurd hall (by simp)
  | next hbefore hleads =>
      rcases List.append_inj' hall rfl with ⟨rfl, hlast⟩
      cases hlast
      exact ⟨_, hbefore, hleads⟩

theorem reports_eq (h : Strides host start strides holding) :
    reports holding.deeds = reports start.deeds ++ strides.flatMap Stride.events := by
  induction h with
  | stay => exact (List.append_nil _).symm
  | next _ hleads ih =>
      rw [hleads.reports_eq, ih, List.flatMap_append, List.flatMap_singleton, List.append_assoc]

end Strides

end ChainIndex
