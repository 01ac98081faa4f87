import Mbf.Bunch.SelectUnsigned
import Mathlib.Tactic.Ring

/-! # When the bunch selection is exact

Up to `2 ^ 31` bunches the counter of `set_range` does not pass `2 ^ 32`, and `parse_bunch_select`
selects the bunches of every list that `Takes` admits (`itemLoop_sound`, `itemLoop_complete`).  So
it is exact unless it takes a text that has a sign or a number of `2 ^ 32` or more in it. -/

namespace Mbf.Bunch

open Parsing Mbf.Command
open Mbf.Config (IsSpace IsTrimmed decimal)

/-! ### The statement -/

/-- A write is accepted exactly if the text is in the documented grammar, selects exactly the
bunches that it denotes, and writes nothing else; and it ends, whatever is in the arrays. -/
def SelectsExactly (bunches : ℕ) (text : List Char) : Prop :=
  ∀ selection garbage : ℕ → Bool, ∃ enough written,
    (∀ fuel ≥ enough, writeBunchSelect bunches fuel text selection garbage = some written) ∧
    written.outside = false ∧
    (written.accepted ↔ ∃ selected, Selects bunches text selected) ∧
    (∀ selected, Selects bunches text selected →
      ∀ i < bunches, written.selection i ↔ selected i) ∧
    (∀ i, bunches ≤ i → written.selection i = selection i) ∧
    (written.accepted = false → written.selection = selection)

/-- The full range. -/
def IsAll (text : List Char) : Prop := ∃ w w', text = w ++ ':' :: w' ∧ IsSpace w ∧ IsSpace w'

/-- The text is a list if a number may have a sign, needs no white space before its sign, and is
cut down to 32 bits. -/
def IsTaken (bunches : ℕ) (text : List Char) : Prop :=
  ∃ w t selected, text = w ++ t ∧ IsSpace w ∧ Takes bunches t selected

/-! ### Ranges -/

section ranges
variable {bunches skip stop : ℕ} {item : Item}

/-- The loop selects the bunches from `i` on. -/
theorem rangeLoop_spec (hskip : 0 < skip) (hfits : stop + skip < 2 ^ 32) (hstop : stop < bunches)
    (i : ℕ) (flags : Flags) : ∃ flags', (∀ fuel, stop + 1 - i < fuel →
      rangeLoop bunches skip stop fuel i flags = some flags') ∧
    flags'.outside = flags.outside ∧
    ∀ b, flags'.cells b ↔ flags.cells b ∨ ∃ j, b = i + j * skip ∧ b ≤ stop := by
  induction hleft : stop + 1 - i using Nat.strong_induction_on generalizing i flags with
  | _ left ih =>
      by_cases hi : i ≤ stop
      · have hnext : (i + skip) % 2 ^ 32 = i + skip := Nat.mod_eq_of_lt (by omega)
        obtain ⟨flags', hruns, houtside, hcells⟩ :=
          ih (stop + 1 - (i + skip)) (by omega) (i + skip) (flags.select bunches i) rfl
        refine ⟨flags', fun fuel hfuel => ?_, ?_, fun b => ?_⟩
        · cases fuel with
          | zero => omega
          | succ fuel =>
              rw [rangeLoop, if_pos hi, hnext]
              exact hruns fuel (by omega)
        · have hin : i < bunches := lt_of_le_of_lt hi hstop
          simp only [houtside, Flags.select, hin, decide_true, Bool.not_true, Bool.or_false]
        · rw [hcells b]
          simp only [Flags.select, Function.update_apply]
          constructor
          · rintro (h | ⟨j, rfl, hb⟩)
            · split at h
              · rename_i heq
                exact .inr ⟨0, by omega, by omega⟩
              · exact .inl h
            · exact .inr ⟨j + 1, by ring, hb⟩
          · rintro (h | ⟨j, rfl, hb⟩)
            · left
              split
              · rfl
              · exact h
            · cases j with
              | zero =>
                  left
                  simp
              | succ j => exact .inr ⟨j, by ring, hb⟩
      · refine ⟨flags, fun fuel hfuel => ?_, rfl, fun b => ?_⟩
        · cases fuel with
          | zero => omega
          | succ fuel => rw [rangeLoop, if_neg hi]
        · constructor
          · exact .inl
          · rintro (h | ⟨j, rfl, hb⟩)
            · exact h
            · omega

/-- Every number of the item is below the number of bunches. -/
def Item.Below (bunches : ℕ) : Item → Prop
  | .bunch b => b < bunches
  | .range start skip stop => start < bunches ∧ skip ≤ bunches ∧ stop < bunches

theorem Padded.lt {t : List Char} {b : ℕ} (h : Padded (Taken bunches) t b) : b < bunches := by
  obtain ⟨t, w, -, htaken, -⟩ := h
  obtain ⟨_, _, _, -, -, -, -, -, -, hlt⟩ := htaken
  exact hlt

theorem Spells.below {t : List Char} (h : Spells (Taken bunches) t item) : item.Below bunches := by
  cases h with
  | bunch h => exact h.lt
  | range h hw h' => exact ⟨h.lt, Nat.one_le_of_lt h.lt, h'.lt⟩
  | skip h hw h' hw' h'' => exact ⟨h.lt, h'.lt.le, h''.lt⟩

/-- A valid item is applied, and selects its bunches. -/
theorem Item.apply_valid (hmax : bunches ≤ 2 ^ 31) (hbelow : item.Below bunches)
    (hvalid : item.Valid) (flags : Flags) : ∃ flags', (∀ fuel > bunches,
      item.apply bunches fuel flags = some (.ok flags')) ∧
    flags'.outside = flags.outside ∧ ∀ b, flags'.cells b ↔ flags.cells b ∨ item.Selects b := by
  cases item with
  | bunch b =>
      have hb : b < bunches := hbelow
      refine ⟨flags.select bunches b, fun _ _ => rfl, ?_, fun i => ?_⟩
      · simp only [Flags.select, hb, decide_true, Bool.not_true, Bool.or_false]
      · simp only [Flags.select, Function.update_apply, Item.Selects]
        split
        · rename_i heq
          exact iff_of_true rfl (.inr heq)
        · rename_i hne
          rw [or_iff_left hne]
  | range start skip stop =>
      obtain ⟨hstart, hskip, hstop⟩ := hbelow
      obtain ⟨hle, hpos⟩ := hvalid
      obtain ⟨flags', hruns, houtside, hcells⟩ :=
        rangeLoop_spec hpos (by omega) hstop start flags
      refine ⟨flags', fun fuel hfuel => ?_, houtside, hcells⟩
      simp only [Item.apply, setRange]
      rw [if_neg (not_not.mpr hle), if_neg (not_not.mpr hpos), hruns fuel (by omega)]
      rfl

/-- An item that is not valid is an error. -/
theorem Item.apply_invalid (hvalid : ¬ item.Valid) (flags : Flags) : ∃ e, ∀ fuel,
    item.apply bunches fuel flags = some (.error e) := by
  cases item with
  | bunch b => exact absurd trivial hvalid
  | range start skip stop =>
      by_cases hle : start ≤ stop
      · have hpos : ¬ 0 < skip := fun hpos => hvalid ⟨hle, hpos⟩
        refine ⟨"Invalid skip interval", fun fuel => ?_⟩
        simp only [Item.apply, setRange]
        rw [if_neg (not_not.mpr hle), if_pos hpos]
      · refine ⟨"Empty range", fun fuel => ?_⟩
        simp only [Item.apply, setRange]
        rw [if_pos hle]

end ranges

/-! ### Lists -/

section lists
variable {bunches : ℕ} {text t t' : List Char} {selected : ℕ → Prop}

theorem Spells.head {item : Item} (h : Spells (Taken bunches) t item) :
    ∃ c more, t = c :: more ∧ isSpace c = false ∧ c ≠ ':' := by
  cases h with
  | bunch h => exact h.head
  | range h hw h' =>
      obtain ⟨c, more, rfl, hc⟩ := h.head
      exact ⟨c, _, rfl, hc⟩
  | skip h hw h' hw' h'' =>
      obtain ⟨c, more, rfl, hc⟩ := h.head
      exact ⟨c, _, rfl, hc⟩

/-- A list starts with a sign or a digit. -/
theorem Takes.head (h : Takes bunches t selected) :
    ∃ c more, t = c :: more ∧ isSpace c = false ∧ c ≠ ':' := by
  cases h with
  | last h =>
      obtain ⟨item, hspells, -⟩ := denotes_iff.mp h
      exact hspells.head
  | more h hsep h' =>
      obtain ⟨item, hspells, -⟩ := denotes_iff.mp h
      obtain ⟨c, more, rfl, hc⟩ := hspells.head
      exact ⟨c, _, rfl, hc⟩

theorem Takes.trimmed (h : Takes bunches t selected) : IsTrimmed t := by
  obtain ⟨c, more, rfl, hspace, -⟩ := h.head
  intro d hd
  obtain rfl := Option.some.inj hd
  exact hspace

/-- An item and what follows it. -/
theorem Takes.cons {item : Item} (hspells : Spells (Taken bunches) t item) (hvalid : item.Valid)
    (hadj : Adjacent t t') (h : Takes bunches t' selected) :
    Takes bunches (t ++ t') fun b => item.Selects b ∨ selected b :=
  .more (denotes_iff.mpr ⟨item, hspells, hvalid, rfl⟩) hadj h

/-- The loop ends, and what it takes is a list. -/
theorem itemLoop_sound (hmax : bunches ≤ 2 ^ 31) (text : List Char) (flags : Flags) :
    ∃ parsed, (∀ rangeFuel > bunches, ∀ fuel > text.length,
      itemLoop bunches rangeFuel fuel text flags = some parsed) ∧
    parsed.flags.outside = flags.outside ∧
    (parsed.error = none → ∃ w t selected, text = w ++ t ∧ IsSpace w ∧ Takes bunches t selected ∧
      ∀ b, parsed.flags.cells b ↔ flags.cells b ∨ selected b) := by
  induction hlength : text.length using Nat.strong_induction_on generalizing text flags with
  | _ length ih =>
      cases hitem : parseItem bunches text with
      | error e rest =>
          refine ⟨⟨some e, rest, flags⟩, fun rangeFuel _ fuel hfuel => ?_, rfl, nofun⟩
          cases fuel with
          | zero => omega
          | succ fuel =>
              rw [itemLoop, hitem]
      | ok item rest =>
          obtain ⟨w, t, rfl, hw, hspells, htrim, hadj⟩ := spells_of_parseItem hitem
          by_cases hvalid : item.Valid
          · obtain ⟨flags', happly, houtside, hcells⟩ :=
              Item.apply_valid hmax hspells.below hvalid flags
            by_cases hrest : rest = []
            · subst hrest
              refine ⟨⟨none, [], flags'⟩, fun rangeFuel hrange fuel hfuel => ?_, houtside,
                fun _ => ⟨w, t, item.Selects, ?_, hw, .last ?_, hcells⟩⟩
              · cases fuel with
                | zero => omega
                | succ fuel =>
                    rw [itemLoop, hitem]
                    dsimp only
                    rw [happly rangeFuel hrange]
                    exact if_pos rfl
              · rw [List.append_nil]
              · exact denotes_iff.mpr ⟨item, hspells, hvalid, rfl⟩
            · obtain ⟨c, more, rfl, -⟩ := hspells.head
              obtain ⟨parsed, hruns, houtside', htaken⟩ := ih rest.length
                (by simp only [← hlength, List.length_append, List.length_cons]; omega) rest flags' rfl
              refine ⟨parsed, fun rangeFuel hrange fuel hfuel => ?_, houtside'.trans houtside,
                fun hnone => ?_⟩
              · cases fuel with
                | zero => omega
                | succ fuel =>
                    rw [itemLoop, hitem]
                    dsimp only
                    rw [happly rangeFuel hrange]
                    dsimp only
                    rw [if_neg hrest]
                    refine hruns rangeFuel hrange fuel ?_
                    simp only [← hlength, List.length_append, List.length_cons] at hfuel
                    omega
              · obtain ⟨w', t', selected, rfl, hw', htakes, hcells'⟩ := htaken hnone
                -- What is left is trimmed.
                have hempty : w' = [] := by
                  cases w' with
                  | nil => rfl
                  | cons d w' =>
                      have hd := hw' d List.mem_cons_self
                      rw [htrim d rfl] at hd
                      cases hd
                subst hempty
                refine ⟨w, _, _, rfl, hw, htakes.cons hspells hvalid hadj, fun b => ?_⟩
                rw [hcells', hcells, or_assoc]
          · obtain ⟨e, happly⟩ := Item.apply_invalid hvalid flags
            refine ⟨⟨some e, rest, flags⟩, fun rangeFuel _ fuel hfuel => ?_, rfl, nofun⟩
            cases fuel with
            | zero => omega
            | succ fuel =>
                rw [itemLoop, hitem]
                dsimp only
                rw [happly rangeFuel]

/-- The loop takes every list, and selects its bunches. -/
theorem itemLoop_complete (hmax : bunches ≤ 2 ^ 31) {rangeFuel : ℕ} (hrange : bunches < rangeFuel)
    (h : Takes bunches t selected) : ∀ (w : List Char) (fuel : ℕ) (flags : Flags), IsSpace w →
      (w ++ t).length < fuel → ∃ parsed,
        itemLoop bunches rangeFuel fuel (w ++ t) flags = some parsed ∧ parsed.error = none ∧
        ∀ b, parsed.flags.cells b ↔ flags.cells b ∨ selected b := by
  induction h with
  | @last t _ h =>
      intro w fuel flags hw hfuel
      obtain ⟨item, hspells, hvalid, rfl⟩ := denotes_iff.mp h
      obtain ⟨flags', happly, -, hcells⟩ := Item.apply_valid hmax hspells.below hvalid flags
      have hitem : parseItem bunches (w ++ (t ++ [])) = .ok item [] :=
        parseItem_of_spells hw hspells nofun (.inr nofun) nofun
      rw [List.append_nil] at hitem
      cases fuel with
      | zero => omega
      | succ fuel =>
          refine ⟨⟨none, [], flags'⟩, ?_, rfl, hcells⟩
          rw [itemLoop, hitem]
          dsimp only
          rw [happly rangeFuel hrange]
          exact if_pos rfl
  | more h hsep h' ih =>
      intro w fuel flags hw hfuel
      obtain ⟨item, hspells, hvalid, rfl⟩ := denotes_iff.mp h
      obtain ⟨flags', happly, -, hcells⟩ := Item.apply_valid hmax hspells.below hvalid flags
      have htrim := Takes.trimmed h'
      obtain ⟨c, more, rfl, hspace, hcolon⟩ := Takes.head h'
      have hitem := parseItem_of_spells hw hspells htrim hsep
        (fun heq => hcolon (Option.some.inj heq))
      cases fuel with
      | zero => omega
      | succ fuel =>
          obtain ⟨c', more', rfl, -⟩ := hspells.head
          simp only [List.length_append, List.length_cons] at hfuel
          obtain ⟨parsed, hruns, hnone, hcells'⟩ := ih [] fuel flags' nofun
            (by simp only [List.nil_append, List.length_cons]; omega)
          refine ⟨parsed, ?_, hnone, fun b => ?_⟩
          · rw [itemLoop, hitem]
            dsimp only
            rw [happly rangeFuel hrange]
            dsimp only
            rw [if_neg (List.cons_ne_nil _ _)]
            exact hruns
          · rw [hcells', hcells, or_assoc]

end lists

/-! ### Writing the selection -/

section writing
variable {bunches fuel : ℕ} {text t w rest : List Char} {selected : ℕ → Prop}
  {selection garbage : ℕ → Bool}

/-- What the documented grammar admits is the full range, or a list that the parser takes. -/
theorem Selects.taken (hmax : bunches ≤ 2 ^ 31) (h : Selects bunches text selected) :
    IsAll text ∧ selected = (· < bunches) ∨ Unsigned text ∧ ∃ w t, text = w ++ t ∧ IsSpace w ∧
      Takes bunches t selected := by
  cases h with
  | all hw hw' => exact .inl ⟨⟨_, _, rfl, hw, hw'⟩, rfl⟩
  | list hw h =>
      exact .inr ⟨(h.unsigned hmax).space_append hw, _, _, rfl, hw, h.taken hmax⟩

theorem dropWhile_space (hw : IsSpace w) (htrim : IsTrimmed t) :
    (w ++ t).dropWhile isSpace = t := (Mbf.Config.span_space hw htrim).dropWhile_eq

theorem dropWhile_takes (hw : IsSpace w) (h : Takes bunches t selected) :
    (w ++ t).dropWhile isSpace = t := dropWhile_space hw h.trimmed

/-- A colon starts the full range, not a list. -/
theorem isAll_iff (hcolon : text.dropWhile isSpace = ':' :: rest) : IsAll text ↔ IsSpace rest := by
  constructor
  · rintro ⟨w, w', rfl, hw, hw'⟩
    rw [dropWhile_space hw trimmed_colon] at hcolon
    obtain ⟨-, rfl⟩ := List.cons_eq_cons.mp hcolon
    exact hw'
  · intro hrest
    have hspan := Span.refl isSpace text
    rw [hcolon] at hspan
    exact ⟨_, rest, hspan.eq, hspan.all, hrest⟩

theorem not_takes_of_colon (hcolon : text.dropWhile isSpace = ':' :: rest) (htext : text = w ++ t)
    (hw : IsSpace w) : ¬ Takes bunches t selected := by
  rintro h
  rw [htext, dropWhile_takes hw h] at hcolon
  obtain ⟨c, more, rfl, -, hc⟩ := h.head
  exact hc (List.cons_eq_cons.mp hcolon).1

/-- Nothing but white space may follow the colon. -/
theorem parseEnd_of_space (h : IsSpace rest) :
    parseEnd rest = .ok () [] := by
  change (parseEos (rest.dropWhile isSpace)) = _
  rw [Mbf.Config.isSpace_iff.mpr h]
  rfl

theorem parseEnd_of_not_space (h : ¬ IsSpace rest) :
    ∃ e rest', parseEnd rest = .error e rest' := by
  change ∃ e rest', (parseEos (rest.dropWhile isSpace)) = _
  cases hend : parseEos (rest.dropWhile isSpace) with
  | error e rest' => exact ⟨e, rest', rfl⟩
  | ok u rest' =>
      exact absurd (Mbf.Config.isSpace_iff.mp (Mbf.Config.parseEos_eq_ok.mp hend).1) h

/-- Where the last element is the largest number the counter runs round for ever. -/
theorem rangeLoop_none {stop : ℕ} (hstop : 2 ^ 32 ≤ stop + 1) (fuel i : ℕ) (hi : i < 2 ^ 32)
    (flags : Flags) : rangeLoop bunches 1 stop fuel i flags = none := by
  induction fuel generalizing i flags with
  | zero => rfl
  | succ fuel ih =>
      rw [rangeLoop, if_pos (by omega)]
      exact ih _ (Nat.mod_lt _ (by omega)) _

theorem setRange_none {stop : ℕ} (hstop : 2 ^ 32 ≤ stop + 1) (fuel : ℕ) (flags : Flags) :
    setRange bunches fuel 0 1 stop flags = none := by
  unfold setRange
  rw [if_neg (not_not.mpr (Nat.zero_le _)), if_neg (not_not.mpr Nat.one_pos),
    rangeLoop_none hstop fuel 0 (by omega)]
  rfl

/-- A text that starts with a colon. -/
theorem selectsExactly_colon (hmax : bunches ≤ 2 ^ 31)
    (hcolon : text.dropWhile isSpace = ':' :: rest) :
    SelectsExactly bunches text ↔ (IsAll text → 0 < bunches) := by
  have hselects : ∀ {selected}, Selects bunches text selected →
      IsAll text ∧ selected = (· < bunches) := by
    intro selected h
    rcases h.taken hmax with h | ⟨-, w, t, htext, hw, htakes⟩
    · exact h
    · exact absurd htakes (not_takes_of_colon hcolon htext hw)
  rw [isAll_iff hcolon]
  by_cases hrest : IsSpace rest
  · have hparse : ∀ fuel flags, parseBunchSelect bunches fuel text flags =
        allRange [] flags (setRange bunches fuel 0 1 (lastBunch bunches) flags) := by
      intro fuel flags
      unfold parseBunchSelect
      rw [hcolon]
      change parseAll bunches fuel rest flags = _
      rw [parseAll, parseEnd_of_space hrest]
    constructor
    · intro h _
      by_contra hzero
      obtain rfl : bunches = 0 := by omega
      obtain ⟨enough, written, hruns, -⟩ := h (fun _ => false) fun _ => false
      have hnone : parseBunchSelect 0 enough text ⟨fun _ => false, false⟩ = none := by
        have hlast : 2 ^ 32 ≤ lastBunch 0 + 1 := by
          unfold lastBunch
          omega
        rw [hparse, setRange_none hlast]
        rfl
      have hwritten := hruns enough le_rfl
      unfold writeBunchSelect at hwritten
      rw [hnone] at hwritten
      cases hwritten
    · intro h selection garbage
      have hpos := h hrest
      have hstop : lastBunch bunches = bunches - 1 := by
        unfold lastBunch
        omega
      obtain ⟨flags, hloop, houtside, hcells⟩ := @rangeLoop_spec bunches 1 (bunches - 1)
        Nat.one_pos (by omega) (by omega) 0 ⟨garbage, false⟩
      refine ⟨bunches + 1, Parsed.written bunches text selection ⟨none, [], flags⟩,
        fun fuel hfuel => ?_, houtside, ?_, fun selected hsel i hi => ?_, fun i hi => ?_, nofun⟩
      · unfold writeBunchSelect
        rw [hparse, hstop]
        unfold setRange
        rw [if_neg (not_not.mpr (Nat.zero_le _)), if_neg (not_not.mpr Nat.one_pos),
          hloop fuel (by omega)]
        rfl
      · obtain ⟨w, w', rfl, hw, hw'⟩ := (isAll_iff hcolon).mpr hrest
        exact iff_of_true rfl ⟨_, .all hw hw'⟩
      · obtain ⟨-, rfl⟩ := hselects hsel
        change (if i < bunches then flags.cells i else selection i) = true ↔ i < bunches
        rw [if_pos hi, hcells i]
        exact iff_of_true (.inr ⟨i, by omega, by omega⟩) hi
      · exact if_neg (Nat.not_lt.mpr hi)
  · refine iff_of_true (fun selection garbage => ?_) fun h => absurd h hrest
    obtain ⟨e, rest', hend⟩ := parseEnd_of_not_space hrest
    refine ⟨0, Parsed.written bunches text selection ⟨some e, rest', ⟨garbage, false⟩⟩,
      fun fuel _ => ?_, rfl, ?_, fun selected hsel i hi => ?_, fun i hi => rfl, fun _ => rfl⟩
    · unfold writeBunchSelect parseBunchSelect
      rw [hcolon]
      change (parseAll bunches fuel rest ⟨garbage, false⟩).map _ = _
      rw [parseAll, hend]
      rfl
    · refine iff_of_false Bool.false_ne_true ?_
      rintro ⟨selected, hsel⟩
      exact hrest ((isAll_iff hcolon).mp (hselects hsel).1)
    · exact absurd ((isAll_iff hcolon).mp (hselects hsel).1) hrest

/-- A text that does not. -/
theorem selectsExactly_list (hmax : bunches ≤ 2 ^ 31)
    (hcolon : ∀ rest, text.dropWhile isSpace ≠ ':' :: rest) :
    SelectsExactly bunches text ↔ (IsTaken bunches text → Unsigned text) := by
  have hselects : ∀ {selected}, Selects bunches text selected → Unsigned text ∧
      ∃ w t, text = w ++ t ∧ IsSpace w ∧ Takes bunches t selected := by
    intro selected h
    rcases h.taken hmax with ⟨⟨w, w', rfl, hw, -⟩, -⟩ | h
    · exact absurd (dropWhile_space hw trimmed_colon) (hcolon w')
    · exact h
  have hparse : ∀ fuel flags, parseBunchSelect bunches fuel text flags =
      itemLoop bunches fuel fuel (text.dropWhile isSpace)
        { flags with cells := fun _ => false } := by
    intro fuel flags
    unfold parseBunchSelect
    split
    · rename_i h
      exact absurd h (hcolon _)
    · rfl
  constructor
  · rintro h ⟨w, t, selected, rfl, hw, htakes⟩
    obtain ⟨enough, written, hruns, -, haccepted, -⟩ := h (fun _ => false) fun _ => false
    obtain ⟨parsed, hloop, hnone, -⟩ := itemLoop_complete hmax
      (show bunches < enough + bunches + t.length + 1 by omega) htakes []
      (enough + bunches + t.length + 1) ⟨fun _ => false, false⟩ nofun
      (by rw [List.nil_append]; omega)
    have hwritten := hruns (enough + bunches + t.length + 1) (by omega)
    unfold writeBunchSelect at hwritten
    rw [hparse, dropWhile_takes hw htakes] at hwritten
    change (itemLoop _ _ _ ([] ++ t) _).map _ = _ at hwritten
    rw [hloop] at hwritten
    obtain rfl := Option.some.inj hwritten
    obtain ⟨selected', hsel⟩ := haccepted.mp (by unfold Parsed.written; rw [hnone])
    exact (hselects hsel).1
  · intro h selection garbage
    obtain ⟨parsed, hloop, houtside, htaken⟩ :=
      itemLoop_sound hmax (text.dropWhile isSpace) ⟨fun _ => false, false⟩
    have hselected : ∀ selected, Selects bunches text selected →
        parsed.error = none ∧ ∀ b, parsed.flags.cells b ↔ selected b := by
      intro selected hsel
      obtain ⟨-, w, t, htext, hw, htakes⟩ := hselects hsel
      obtain ⟨parsed', hloop', hnone, hcells⟩ := itemLoop_complete hmax
        (show bunches < bunches + t.length + 1 by omega) htakes [] (bunches + t.length + 1)
        ⟨fun _ => false, false⟩ nofun (by rw [List.nil_append]; omega)
      rw [htext, dropWhile_takes hw htakes] at hloop
      have hsame := (hloop (bunches + t.length + 1) (by omega) (bunches + t.length + 1)
        (by omega)).symm.trans hloop'
      obtain rfl := Option.some.inj hsame
      refine ⟨hnone, fun b => ?_⟩
      rw [hcells b]
      exact or_iff_right Bool.false_ne_true
    refine ⟨bunches + (text.dropWhile isSpace).length + 1,
      Parsed.written bunches text selection parsed, fun fuel hfuel => ?_, ?_, ⟨fun haccepted => ?_,
      ?_⟩, fun selected hsel i hi => ?_, fun i hi => ?_, fun hrejected => ?_⟩
    · unfold writeBunchSelect
      rw [hparse, hloop fuel (by omega) fuel (by omega)]
      rfl
    · unfold Parsed.written
      split <;> exact houtside
    · have hnone : parsed.error = none := by
        cases herror : parsed.error with
        | none => rfl
        | some e =>
            unfold Parsed.written at haccepted
            rw [herror] at haccepted
            cases haccepted
      obtain ⟨w', t, selected, htext, hw', htakes, -⟩ := htaken hnone
      have hspan := Span.refl isSpace text
      have hw : IsSpace (text.takeWhile isSpace ++ w') := by
        intro c hc
        rcases List.mem_append.mp hc with hc | hc
        · exact hspan.all c hc
        · exact hw' c hc
      have hsplit : text = (text.takeWhile isSpace ++ w') ++ t := by
        rw [List.append_assoc, ← htext]
        exact hspan.eq
      have hunsigned := h ⟨_, t, selected, hsplit, hw, htakes⟩
      rw [hsplit] at hunsigned ⊢
      exact ⟨selected, .list hw (htakes.plain (hunsigned.part List.infix_append_right))⟩
    · rintro ⟨selected, hsel⟩
      unfold Parsed.written
      rw [(hselected selected hsel).1]
    · obtain ⟨hnone, hcells⟩ := hselected selected hsel
      unfold Parsed.written
      rw [hnone]
      change (if i < bunches then parsed.flags.cells i else selection i) = true ↔ _
      rw [if_pos hi, hcells i]
    · unfold Parsed.written
      split
      · exact if_neg (by omega)
      · rfl
    · unfold Parsed.written at hrejected ⊢
      split at hrejected
      · cases hrejected
      · rfl

/-- The bunch selection is exact unless it lets a sign or a long number through, or has no bunches
to select with a colon. -/
theorem bunch_select_exact_iff (bunches : ℕ) (text : List Char) (hmax : bunches ≤ 2 ^ 31) :
    SelectsExactly bunches text ↔
      (IsAll text → 0 < bunches) ∧ (IsTaken bunches text → Unsigned text) := by
  by_cases hcolon : ∃ rest, text.dropWhile isSpace = ':' :: rest
  · obtain ⟨rest, hcolon⟩ := hcolon
    rw [selectsExactly_colon hmax hcolon, and_iff_left]
    rintro ⟨w, t, selected, htext, hw, htakes⟩
    exact absurd htakes (not_takes_of_colon hcolon htext hw)
  · have hlist : ∀ rest, text.dropWhile isSpace ≠ ':' :: rest := fun rest h => hcolon ⟨rest, h⟩
    rw [selectsExactly_list hmax hlist, and_iff_right]
    rintro ⟨w, w', rfl, hw, -⟩
    exact absurd (dropWhile_space hw trimmed_colon) (hlist w')

theorem bunch_select_exact_936 : SelectsExactly 936 "1 5:9 20:2:30".toList := by
  refine (bunch_select_exact_iff 936 _ (by decide)).mpr ⟨fun _ => by decide, fun _ => ?_⟩
  have hnumber : ∀ digits, digits ≠ [] → digits.all Char.isDigit = true → decimal digits < 936 →
      Unsigned digits := by
    intro digits hne hdigits hlt
    have hplain : Plain 936 digits (decimal digits) :=
      ⟨hne, List.all_eq_true.mp hdigits, rfl, hlt⟩
    exact hplain.unsigned (by decide)
  have hlast : Unsigned (['2', '0'] ++ ':' :: (['2'] ++ ':' :: ['3', '0'])) :=
    (hnumber ['2', '0'] (by decide) rfl (by decide)).append_cons
      ((hnumber ['2'] (by decide) rfl (by decide)).append_cons
        (hnumber ['3', '0'] (by decide) rfl (by decide)) rfl (by decide) (by decide))
      rfl (by decide) (by decide)
  have hrange : Unsigned (['5'] ++ ':' :: ['9']) :=
    (hnumber ['5'] (by decide) rfl (by decide)).append_cons
      (hnumber ['9'] (by decide) rfl (by decide)) rfl (by decide) (by decide)
  exact (hnumber ['1'] (by decide) rfl (by decide)).append_space_cons
    (hrange.append_space_cons hlast rfl) rfl

/-- A sign gets through. -/
theorem bunch_select_not_exact : ¬ SelectsExactly 936 "+5".toList := by
  intro h
  obtain ⟨enough, written, hruns, -, haccepted, -⟩ := h (fun _ => false) fun _ => false
  have hparse : parseItem 936 "+5".toList = .ok (.bunch 5) [] := rfl
  have hwritten := hruns (enough + 1) (by omega)
  change (itemLoop 936 (enough + 1) (enough + 1) "+5".toList _).map _ = _ at hwritten
  rw [itemLoop, hparse] at hwritten
  obtain rfl := Option.some.inj hwritten
  obtain ⟨selected, hsel⟩ := haccepted.mp rfl
  rcases hsel.taken (by decide) with ⟨⟨w, w', htext, -⟩, -⟩ | ⟨hunsigned, -⟩
  · have hcolon : ':' ∈ "+5".toList := by
      rw [htext]
      exact List.mem_append_right w List.mem_cons_self
    exact absurd hcolon (by decide)
  · exact absurd hunsigned.1 (by decide)

end writing

end Mbf.Bunch
