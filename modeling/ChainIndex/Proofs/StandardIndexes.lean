import ChainIndex.Proofs.RecordedTips
import ChainIndex.Proofs.StandardEntries

/-!
# The standard indexes

The standard catalogue has the index of heights and the index of times, in either
order.  The edits of the former depend on the block alone.  Those of the latter are
made from what is read of the table, and are there only if it could be read.
-/

namespace ChainIndex

structure Catalogue.IsStandard (catalogue : Catalogue) : Prop where
  concurrent : catalogue.on .concurrent = [Heights.index]
  serial : catalogue.on .serial = [Times.index]

theorem storedText_ofText (name text : String) :
    storedText name (Bytes.ofText text) = .ok text := by
  rw [storedText, Bytes.toText?_ofText]

/-!
# Stored times
-/

namespace Times

variable {view : View} {key : Bytes} {block : Block} {own : List Edit}

def stored (view : View) (key : Bytes) : Except Fault (Option Int64) := do
  match ← view.get? key with
  | some bytes => return some (← storedInteger name bytes)
  | none => return none

theorem reads_of_stored {found : Option Int64} (h : stored view key = .ok found) :
    view.outages.onGet key = none := by
  cases hreads : view.outages.onGet key with
  | none => rfl
  | some fault =>
      unfold stored View.get? at h
      rw [hreads] at h
      cases h

def Word (time : Int) : Prop :=
  Int64.minValue.toInt ≤ time ∧ time ≤ Int64.maxValue.toInt

theorem Word.toInt_ofInt {time : Int} (h : Word time) : (Int64.ofInt time).toInt = time := by
  have hmin : Int64.minValue.toInt = -2 ^ 63 := rfl
  have hmax : Int64.maxValue.toInt = 2 ^ 63 - 1 := rfl
  unfold Word at h
  exact Int64.toInt_ofInt_of_le (by omega) (by omega)

theorem storedInteger_signed {time : Int} (h : Word time) :
    storedInteger name (Numeral.signed time) = .ok (Int64.ofInt time) := by
  have hword : Numeral.signedWord? time = some (Int64.ofInt time) := if_pos h
  rw [storedInteger, Numeral.integer?_signed, Option.bind_some, hword]

theorem stored_eq (hreads : view.outages.onGet key = none) {expected : Option Int}
    (hword : ∀ time ∈ expected, Word time)
    (h : view.table.get? key = expected.map Numeral.signed) :
    stored view key = .ok (expected.map Int64.ofInt) := by
  unfold stored View.get?
  rw [hreads, h]
  cases expected with
  | none => rfl
  | some time =>
      show (do return some (← storedInteger name (Numeral.signed time)) :
        Except Fault (Option Int64)) = _
      rw [storedInteger_signed (hword time rfl)]
      rfl

theorem eq_of_stored {found : Option Int64} (hstored : stored view key = .ok found)
    {expected : Option Int} (hword : ∀ time ∈ expected, Word time)
    (h : view.table.get? key = expected.map Numeral.signed) :
    found.map Int64.toInt = expected := by
  rw [stored_eq (reads_of_stored hstored) hword h] at hstored
  cases hstored
  cases expected with
  | none => rfl
  | some time => exact congrArg some (hword time rfl).toInt_ofInt

/-!
# Edits of the index
-/

theorem edits_apply_eq (block : Block) (view : View) :
    edits block .apply view =
      match last view with
      | .error fault => .error (.fault fault)
      | .ok found =>
          match assign block.header.timestamp found with
          | none => .error .overflow
          | some time => .ok (applied block time) := by
  unfold edits
  cases last view with
  | error fault => rfl
  | ok found =>
      show (do
        let time ← orOverflow (assign block.header.timestamp found)
        return applied block time : Except Halt (List Edit)) = _
      dsimp only
      cases assign block.header.timestamp found with
      | none => rfl
      | some time => rfl

theorem edits_undo_eq (block : Block) (view : View) :
    edits block .undo view =
      match timeOf view block.hash with
      | .error fault => .error (.fault fault)
      | .ok none => .error (.fault (.service name s!"block {block.hash} was never indexed"))
      | .ok (some time) =>
          match parentTime view block with
          | .error fault => .error (.fault fault)
          | .ok parentTime => .ok (undone block time parentTime) := by
  unfold edits
  cases timeOf view block.hash with
  | error fault => rfl
  | ok found =>
      cases found with
      | none => rfl
      | some time =>
          show ofFault (do return undone block time (← parentTime view block)) = _
          dsimp only
          cases parentTime view block with
          | error fault => rfl
          | ok parentTime => rfl

theorem edits_apply_ok (h : edits block .apply view = .ok own) :
    ∃ found time, last view = .ok found ∧ assign block.header.timestamp found = some time ∧
      own = applied block time := by
  rw [edits_apply_eq] at h
  cases hlast : last view with
  | error fault =>
      rw [hlast] at h
      cases h
  | ok found =>
      rw [hlast] at h
      dsimp only at h
      cases hassign : assign block.header.timestamp found with
      | none =>
          rw [hassign] at h
          cases h
      | some time =>
          rw [hassign] at h
          exact ⟨found, time, rfl, hassign, (Except.ok.inj h).symm⟩

theorem edits_undo_ok (h : edits block .undo view = .ok own) :
    ∃ time parent, timeOf view block.hash = .ok (some time) ∧
      parentTime view block = .ok parent ∧ own = undone block time parent := by
  rw [edits_undo_eq] at h
  cases htime : timeOf view block.hash with
  | error fault =>
      rw [htime] at h
      cases h
  | ok found =>
      rw [htime] at h
      cases found with
      | none => cases h
      | some time =>
          dsimp only at h
          cases hparent : parentTime view block with
          | error fault =>
              rw [hparent] at h
              cases h
          | ok parent =>
              rw [hparent] at h
              exact ⟨time, parent, rfl, rfl, (Except.ok.inj h).symm⟩

theorem next?_eq_some {time next : Int64} (h : next? time = some next) :
    next.toInt = time.toInt + 1 := by
  unfold next? at h
  split at h
  · rename_i hroom
    have hlt := Int64.lt_iff_toInt_lt.mp hroom
    have hmin : -2 ^ 63 ≤ time.toInt := Int64.minValue_le_toInt time
    have htop : Int64.maxValue.toInt = 2 ^ 63 - 1 := rfl
    rw [← Option.some.inj h, Int64.toInt_add, Int64.toInt_one]
    exact Int.bmod_eq_of_le (by omega) (by omega)
  · cases h

theorem next?_eq_none {time : Int64} (h : next? time = none) :
    time.toInt = Int64.maxValue.toInt := by
  unfold next? at h
  split at h
  · cases h
  · rename_i hfull
    have hle := Int64.toInt_le time
    have hnot : ¬ time.toInt < Int64.maxValue.toInt := fun hlt =>
      hfull (Int64.lt_iff_toInt_lt.mpr hlt)
    omega

theorem assign_eq (stated : Int64) (found : Option Int64) :
    assign stated found =
      if follow stated.toInt (found.map Int64.toInt) ≤ Int64.maxValue.toInt then
        some (Int64.ofInt (follow stated.toInt (found.map Int64.toInt)))
      else none := by
  have hstated := Int64.toInt_le stated
  cases found with
  | none =>
      show some stated = if stated.toInt ≤ _ then some (Int64.ofInt stated.toInt) else none
      rw [if_pos hstated, Int64.ofInt_toInt]
  | some last =>
      rw [assign, Option.map_some]
      by_cases hlate : stated ≤ last
      · have hle := Int64.le_iff_toInt_le.mp hlate
        have hfollow : follow stated.toInt (some last.toInt) = last.toInt + 1 :=
          Int.max_eq_right (by omega)
        rw [if_pos hlate, hfollow]
        cases hnext : next? last with
        | some next =>
            have hstep := next?_eq_some hnext
            have hfits := Int64.toInt_le next
            rw [if_pos (by omega), ← hstep, Int64.ofInt_toInt]
        | none =>
            have hfull := next?_eq_none hnext
            rw [if_neg (by omega)]
      · have hlt : ¬ stated.toInt ≤ last.toInt := fun h => hlate (Int64.le_iff_toInt_le.mpr h)
        have hfollow : follow stated.toInt (some last.toInt) = stated.toInt :=
          Int.max_eq_left (by omega)
        rw [if_neg hlate, hfollow, if_pos hstated, Int64.ofInt_toInt]

theorem toInt_of_assign {stated time : Int64} {found : Option Int64}
    (h : assign stated found = some time) :
    time.toInt = follow stated.toInt (found.map Int64.toInt) := by
  rw [assign_eq] at h
  split at h
  · rename_i hfits
    rw [← Option.some.inj h]
    have hlow := Int64.minValue_le_toInt stated
    exact Word.toInt_ofInt ⟨Int.le_trans hlow (stated_le_follow _ _), hfits⟩
  · cases h

end Times

/-!
# Edits of the catalogue
-/

namespace Catalogue.IsStandard

variable {catalogue : Catalogue} {block : Block} {direction : Direction} {view : View}
variable {own : List Edit}

theorem edits_concurrent (h : catalogue.IsStandard) (block : Block) (direction : Direction)
    (view : View) :
    catalogue.edits .concurrent block direction view = .ok (Heights.edits block direction) := by
  unfold Catalogue.edits
  rw [h.concurrent]
  show Except.ok (Heights.edits block direction ++ []) = _
  rw [List.append_nil]

theorem edits_serial (h : catalogue.IsStandard) (block : Block) (direction : Direction)
    (view : View) :
    catalogue.edits .serial block direction view =
      Times.index.editsFor block direction view := by
  unfold Catalogue.edits
  rw [h.serial, Catalogue.gather]
  cases Times.index.editsFor block direction view with
  | error cause => rfl
  | ok own =>
      show Except.ok (own ++ []) = _
      rw [List.append_nil]

theorem edits_serial_ok (h : catalogue.IsStandard)
    (hown : catalogue.edits .serial block direction view = .ok own) :
    Times.edits block direction view = .ok own := by
  rw [h.edits_serial] at hown
  exact Index.edits_of_editsFor hown

theorem edits_serial_of_ok (h : catalogue.IsStandard)
    (hown : Times.edits block direction view = .ok own) :
    catalogue.edits .serial block direction view = .ok own := by
  rw [h.edits_serial]
  exact Index.editsFor_of_edits hown

theorem gathered_concurrent (h : catalogue.IsStandard) {table : Table} {blocks : List Block}
    (hgathered : Gathered catalogue table .concurrent direction blocks own) :
    own = blocks.flatMap (Heights.edits · direction) := by
  induction hgathered with
  | none => rfl
  | more hfirst _ ih =>
      rw [h.edits_concurrent] at hfirst
      rw [List.flatMap_cons, ih, Except.ok.inj hfirst]

theorem gathered_serial (h : catalogue.IsStandard) {table : Table}
    (hgathered : Gathered catalogue table .serial direction [block] own) :
    ∃ outages, Times.edits block direction ⟨table, outages⟩ = .ok own := by
  cases hgathered with
  | more hfirst hrest =>
      cases hrest
      rw [List.append_nil]
      exact ⟨_, h.edits_serial_ok hfirst⟩

end Catalogue.IsStandard

end ChainIndex
