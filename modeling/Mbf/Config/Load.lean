import Mbf.Config.Grammar
import Mbf.Config.Reader
import Mathlib.Data.List.OfFn

/-! # Loading a configuration file

`load_config_file` of `config_file.c`, on the content of the file: what it accepts (`WellFormed`) and
what its targets hold then.  The numbers are converted in 64 bits and cut down to 32 without a
check, a name that does not fit its buffer is an error even if its key is to be skipped, and a null
character hides the rest of what `fgets` has read: these are the three ways in which the code departs
from the exact law (`load_config_file_iff`). -/

namespace Mbf.Config

section model
variable {δ : Type} (strtod : List Char → δ × List Char × Bool) (fileName : String)
  (table : List Entry) (ignoreUnknown : Bool)

/-- A line read before the end of the file takes something from it. -/
theorem readLine_shorter {buffer input : List Char} {pos lineLength lineNumber : ℕ} {r : ReadLine}
    (h : readLine buffer pos lineLength lineNumber input = .ok r) (heof : ¬ r.eof = true) :
    r.input.length < input.length := by
  fun_induction readLine buffer pos lineLength lineNumber input with
  | case1 => cases h
  | case2 _ _ _ _ _ one hread hwant _ ih =>
      exact (ih h).trans (readOneLine_shorter hread hwant.1)
  | case3 => cases h
  | case4 _ _ _ _ _ one hread _ =>
      obtain rfl := Except.ok.inj h
      exact readOneLine_shorter hread (eq_false_of_ne_true heof)

/-- Process each line in the file. -/
def loadLines (buffer : List Char) (lineNumber : ℕ) (input : List Char) (loaded : Loaded δ) :
    Except Fault (Loaded δ) :=
  match _h : readLine buffer 0 lineSize lineNumber input with
  | .error fault => .error fault
  | .ok r =>
      match doParseLine strtod fileName r.lineNumber (stringAt r.buffer 0) table ignoreUnknown
          loaded with
      | .error messages => .error (.message messages)
      | .ok loaded =>
          if _heof : r.eof = true then .ok loaded
          else loadLines r.buffer r.lineNumber r.input loaded
termination_by input.length
decreasing_by exact readLine_shorter ‹_› ‹_›

/-- `load_config_file`, of a file with this content that is opened and read without error.  `buffer`
is what happens to be in the line buffer. -/
def loadConfigFile (buffer : Fin lineSize → Char) (content : List Char) :
    Except Fault (Loaded δ) :=
  match loadLines strtod fileName table ignoreUnknown (List.ofFn buffer) 0 content
      ⟨fun _ => false, fun _ => none⟩ with
  | .error fault => .error fault
  | .ok loaded =>
      match (List.range table.length).find? fun ix => !loaded.seen ix with
      | some ix =>
          let name := String.ofList ((table[ix]?.map Entry.name).getD [])
          .error (.message [s!"No value specified for parameter: {name}"])
      | none => .ok loaded

end model

/-! ### What is accepted -/

/-- Every line is skipped or assigns a value to a key of the table, and no key is assigned twice. -/
structure InOrder {δ : Type} (lang : Language δ) (table : List Entry) (ignoreUnknown : Bool)
    (lines : List (List Char)) : Prop where
  each : ∀ line ∈ lines,
    IsSkipped lang table ignoreUnknown line ∨ ∃ ix v, Assigns lang table line ix v
  once : lines.Pairwise fun line line' =>
    ∀ ix v v', Assigns lang table line ix v → ¬ Assigns lang table line' ix v'

/-- The file gives a key its value. -/
def Gives {δ : Type} (lang : Language δ) (table : List Entry) (content : List Char) (ix : ℕ)
    (v : Value δ) : Prop :=
  ∃ line ∈ logicalLines content, Assigns lang table line ix v

/-- The file is accepted: no line is too long, the lines are in order and every key is assigned. -/
structure WellFormed {δ : Type} (lang : Language δ) (table : List Entry) (ignoreUnknown : Bool)
    (content : List Char) : Prop where
  room : hasRoom 0 content = true
  lines : InOrder lang table ignoreUnknown (logicalLines content)
  every : ∀ ix < table.length, ∃ v, Gives lang table content ix v

/-- What the lines do to the targets, one after the other. -/
inductive Lines {δ : Type} (strtod : List Char → δ × List Char × Bool) (table : List Entry)
    (ignoreUnknown : Bool) : List (List Char) → Loaded δ → Loaded δ → Prop
  | nil {loaded} : Lines strtod table ignoreUnknown [] loaded loaded
  | skip {line lines loaded loaded'} (h : IsSkipped (taken strtod) table ignoreUnknown line)
      (hrest : Lines strtod table ignoreUnknown lines loaded loaded') :
      Lines strtod table ignoreUnknown (line :: lines) loaded loaded'
  | assign {line lines loaded loaded' ix v} (h : Assigns (taken strtod) table line ix v)
      (hseen : loaded.seen ix = false)
      (hrest : Lines strtod table ignoreUnknown lines (loaded.assign ix v) loaded') :
      Lines strtod table ignoreUnknown (line :: lines) loaded loaded'

section lines
variable {δ : Type} {strtod : List Char → δ × List Char × Bool} {fileName : String}
  {table : List Entry} {ignoreUnknown : Bool} {lines : List (List Char)} {line : List Char}
  {loaded loaded' : Loaded δ} {ix ix' lineNumber : ℕ} {v : Value δ}

@[simp] theorem Loaded.assign_seen : (loaded.assign ix v).seen ix = true := Function.update_self ..

theorem Loaded.assign_seen_ne (h : ix' ≠ ix) : (loaded.assign ix v).seen ix' = loaded.seen ix' :=
  Function.update_of_ne h ..

@[simp] theorem Loaded.assign_target : (loaded.assign ix v).target ix = some v :=
  Function.update_self ..

theorem Loaded.assign_target_ne (h : ix' ≠ ix) :
    (loaded.assign ix v).target ix' = loaded.target ix' :=
  Function.update_of_ne h ..

/-- The next line, and the rest. -/
theorem Lines.cons_iff (fileName : String) (lineNumber : ℕ) :
    Lines strtod table ignoreUnknown (line :: lines) loaded loaded' ↔
    ∃ between, doParseLine strtod fileName lineNumber line table ignoreUnknown loaded = .ok between ∧
      Lines strtod table ignoreUnknown lines between loaded' := by
  simp only [doParseLine_iff]
  constructor
  · intro h
    cases h with
    | skip h hrest => exact ⟨loaded, .inl ⟨h, rfl⟩, hrest⟩
    | assign h hseen hrest => exact ⟨_, .inr ⟨_, _, h, hseen, rfl⟩, hrest⟩
  · rintro ⟨between, ⟨h, rfl⟩ | ⟨ix, v, h, hseen, rfl⟩, hrest⟩
    · exact .skip h hrest
    · exact .assign h hseen hrest

/-- A first line that is taken. -/
theorem Lines.cons_ok {between : Loaded δ}
    (h : doParseLine strtod fileName lineNumber line table ignoreUnknown loaded = .ok between) :
    Lines strtod table ignoreUnknown (line :: lines) loaded loaded' ↔
      Lines strtod table ignoreUnknown lines between loaded' := by
  rw [Lines.cons_iff fileName lineNumber]
  constructor
  · rintro ⟨next, hnext, hrest⟩
    obtain rfl := Except.ok.inj (h.symm.trans hnext)
    exact hrest
  · intro hrest
    exact ⟨between, h, hrest⟩

/-- A first line that is an error. -/
theorem Lines.cons_error {messages : List String}
    (h : doParseLine strtod fileName lineNumber line table ignoreUnknown loaded = .error messages) :
    ¬ Lines strtod table ignoreUnknown (line :: lines) loaded loaded' := by
  rw [Lines.cons_iff fileName lineNumber]
  rintro ⟨next, hnext, -⟩
  cases h.symm.trans hnext

/-- What is seen stays as it is. -/
theorem Lines.kept (h : Lines strtod table ignoreUnknown lines loaded loaded')
    (hseen : loaded.seen ix = true) :
    loaded'.seen ix = true ∧ loaded'.target ix = loaded.target ix := by
  induction h with
  | nil => exact ⟨hseen, rfl⟩
  | skip _ _ ih => exact ih hseen
  | @assign line lines loaded loaded' jx v _ hunseen _ ih =>
      have hne : ix ≠ jx := by
        rintro rfl
        rw [hunseen] at hseen
        cases hseen
      obtain ⟨hkept, htarget⟩ := ih (by rw [Loaded.assign_seen_ne hne]; exact hseen)
      exact ⟨hkept, htarget.trans (Loaded.assign_target_ne hne)⟩

/-- What a line assigns was not seen before, and is what the target holds. -/
theorem Lines.assigned (h : Lines strtod table ignoreUnknown lines loaded loaded')
    (hline : line ∈ lines) (hassigns : Assigns (taken strtod) table line ix v) :
    loaded.seen ix = false ∧ loaded'.seen ix = true ∧ loaded'.target ix = some v := by
  induction h with
  | nil => cases hline
  | skip hskipped _ ih =>
      rcases List.mem_cons.mp hline with rfl | hline
      · exact absurd hskipped hassigns.not_skipped
      · exact ih hline
  | @assign first lines loaded loaded' jx w hfirst hunseen hrest ih =>
      rcases List.mem_cons.mp hline with rfl | hline
      · obtain ⟨rfl, rfl⟩ := hassigns.unique hfirst
        obtain ⟨hseen, htarget⟩ := hrest.kept Loaded.assign_seen
        exact ⟨hunseen, hseen, htarget.trans Loaded.assign_target⟩
      · obtain ⟨hseen, hrest⟩ := ih hline
        have hne : ix ≠ jx := by
          rintro rfl
          rw [Loaded.assign_seen] at hseen
          cases hseen
        rw [Loaded.assign_seen_ne hne] at hseen
        exact ⟨hseen, hrest⟩

/-- Lines that are taken are in order. -/
theorem Lines.inOrder (h : Lines strtod table ignoreUnknown lines loaded loaded') :
    InOrder (taken strtod) table ignoreUnknown lines := by
  induction h with
  | nil => exact ⟨nofun, .nil⟩
  | skip hskipped _ ih =>
      refine ⟨List.forall_mem_cons.mpr ⟨.inl hskipped, ih.each⟩, .cons ?_ ih.once⟩
      exact fun line' _ ix v v' hassigns => absurd hskipped hassigns.not_skipped
  | assign hfirst hunseen hrest ih =>
      refine ⟨List.forall_mem_cons.mpr ⟨.inr ⟨_, _, hfirst⟩, ih.each⟩, .cons ?_ ih.once⟩
      intro line' hline ix v v' hassigns hassigns'
      obtain ⟨rfl, rfl⟩ := hassigns.unique hfirst
      have hseen := (hrest.assigned hline hassigns').1
      rw [Loaded.assign_seen] at hseen
      cases hseen

/-- What is seen was assigned. -/
theorem Lines.seen (h : Lines strtod table ignoreUnknown lines loaded loaded')
    (hseen : loaded'.seen ix = true) : loaded.seen ix = true ∨
      ∃ line ∈ lines, ∃ v, Assigns (taken strtod) table line ix v := by
  induction h with
  | nil => exact .inl hseen
  | skip _ _ ih =>
      exact (ih hseen).imp_right fun ⟨line, hline, hassigns⟩ =>
        ⟨line, List.mem_cons_of_mem _ hline, hassigns⟩
  | @assign first lines loaded loaded' jx w hfirst hunseen hrest ih =>
      rcases ih hseen with hbefore | ⟨line, hline, hassigns⟩
      · by_cases hix : ix = jx
        · subst hix
          exact .inr ⟨first, List.mem_cons_self, w, hfirst⟩
        · rw [Loaded.assign_seen_ne hix] at hbefore
          exact .inl hbefore
      · exact .inr ⟨line, List.mem_cons_of_mem _ hline, hassigns⟩

/-- Lines that are in order are taken. -/
theorem InOrder.exists_lines (h : InOrder (taken strtod) table ignoreUnknown lines)
    (hunseen : ∀ line ∈ lines, ∀ ix v, Assigns (taken strtod) table line ix v →
      loaded.seen ix = false) :
    ∃ loaded', Lines strtod table ignoreUnknown lines loaded loaded' := by
  obtain ⟨heach, honce⟩ := h
  induction lines generalizing loaded with
  | nil => exact ⟨loaded, .nil⟩
  | cons line lines ih =>
      obtain ⟨hfirst, heach⟩ := List.forall_mem_cons.mp heach
      obtain ⟨hunseenFirst, hunseen⟩ := List.forall_mem_cons.mp hunseen
      obtain ⟨honceFirst, honce⟩ := List.pairwise_cons.mp honce
      rcases hfirst with hskipped | ⟨ix, v, hassigns⟩
      · obtain ⟨loaded', hlines⟩ := ih hunseen heach honce
        exact ⟨loaded', .skip hskipped hlines⟩
      · have hrest : ∀ line' ∈ lines, ∀ jx w, Assigns (taken strtod) table line' jx w →
            (loaded.assign ix v).seen jx = false := by
          intro line' hline jx w hassigns'
          have hne : jx ≠ ix := by
            rintro rfl
            exact honceFirst line' hline jx v w hassigns hassigns'
          rw [Loaded.assign_seen_ne hne]
          exact hunseen line' hline jx w hassigns'
        obtain ⟨loaded', hlines⟩ := ih hrest heach honce
        exact ⟨loaded', .assign hassigns (hunseenFirst ix v hassigns) hlines⟩

theorem Lines.nil_iff : Lines strtod table ignoreUnknown [] loaded loaded' ↔ loaded = loaded' := by
  constructor
  · rintro ⟨⟩
    rfl
  · rintro rfl
    exact .nil

/-- An empty line more makes no difference. -/
theorem Lines.blank_iff :
    Lines strtod table ignoreUnknown [[]] loaded loaded' ↔ loaded = loaded' := by
  have hblank : IsSkipped (taken strtod) table ignoreUnknown [] :=
    .inl ⟨[], [], rfl, nofun, .inl rfl⟩
  constructor
  · intro h
    cases h with
    | skip _ hrest => exact Lines.nil_iff.mp hrest
    | assign hassigns => exact absurd hblank hassigns.not_skipped
  · rintro rfl
    exact .skip hblank .nil

/-! ### The loop -/

section loop
variable {buffer input : List Char} {r : ReadLine}

theorem loadLines_error {fault : Fault}
    (h : readLine buffer 0 lineSize lineNumber input = .error fault) :
    loadLines strtod fileName table ignoreUnknown buffer lineNumber input loaded =
      .error fault := by
  rw [loadLines]
  split
  · rename_i hread
    rw [h] at hread
    rw [Except.error.inj hread]
  · rename_i hread
    rw [h] at hread
    cases hread

theorem loadLines_ok (h : readLine buffer 0 lineSize lineNumber input = .ok r) :
    loadLines strtod fileName table ignoreUnknown buffer lineNumber input loaded =
      match doParseLine strtod fileName r.lineNumber (stringAt r.buffer 0) table ignoreUnknown
          loaded with
      | .error messages => .error (.message messages)
      | .ok loaded =>
          if r.eof = true then .ok loaded
          else loadLines strtod fileName table ignoreUnknown r.buffer r.lineNumber r.input loaded := by
  rw [loadLines]
  split
  · rename_i hread
    rw [h] at hread
    cases hread
  · rename_i hread
    rw [h] at hread
    obtain rfl := Except.ok.inj hread
    rfl

/-- Whatever is read, nothing is written past the buffer. -/
theorem loadLines_safe (hbuffer : buffer.length = lineSize) :
    loadLines strtod fileName table ignoreUnknown buffer lineNumber input loaded ≠
      .error .overrun := by
  induction hn : input.length using Nat.strongRecOn generalizing buffer lineNumber input loaded with
  | _ n ih =>
      rcases @readLine_safe buffer input 0 lineSize lineNumber ⟨hbuffer, rfl, by decide⟩ with
        ⟨fault, hread, hfault⟩ | ⟨r, hread, hsize⟩
      · rw [loadLines_error hread]
        intro h
        exact hfault (Except.error.inj h)
      · rw [loadLines_ok hread]
        split
        · exact nofun
        · split
          · exact nofun
          · exact ih r.input.length (hn ▸ readLine_shorter hread ‹_›) hsize rfl

theorem logicalLines_ne_nil : logicalLines input ≠ [] := by
  fun_induction logicalLines input with
  | case1 => exact List.cons_ne_nil _ _
  | case2 => exact List.cons_ne_nil _ _
  | case3 _ ih => exact ih
  | case4 => exact List.cons_ne_nil _ _
  | case5 _ rest _ _ _ ih =>
      cases hlines : logicalLines rest with
      | nil => exact absurd hlines ih
      | cons => exact List.cons_ne_nil _ _

/-- What is made of the lines that are seen: they are loaded if they have room and are in order, and
the assertion fails if that can be said of all of them up to where the reading stops. -/
structure LinesRead (strtod : List Char → δ × List Char × Bool) (table : List Entry)
    (ignoreUnknown : Bool) (input : List Char) (loaded : Loaded δ)
    (result : Except Fault (Loaded δ)) : Prop where
  ok : ∀ loaded', result = .ok loaded' ↔ (seen 0 input).2 = false ∧
    hasRoom 0 (seen 0 input).1 = true ∧
    Lines strtod table ignoreUnknown (logicalLines (seen 0 input).1) loaded loaded'
  assertion : result = .error .assertion ↔ (seen 0 input).2 = true ∧
    hasRoom 0 (seen 0 input).1 = true ∧
    ∃ loaded', Lines strtod table ignoreUnknown (logicalLines (seen 0 input).1).dropLast loaded loaded'

section read
variable {line : List Char} {between : Loaded δ} {result : Except Fault (Loaded δ)}

/-- A line without room is an error. -/
theorem LinesRead.no_room (hroom : hasRoom 0 (seen 0 input).1 = false) (messages : List String) :
    LinesRead strtod table ignoreUnknown input loaded (.error (.message messages)) := by
  refine ⟨fun loaded' => iff_of_false nofun fun h => ?_, iff_of_false nofun fun h => ?_⟩
  · cases hroom.symm.trans h.2.1
  · cases hroom.symm.trans h.2.1

/-- Where a line starts with a null character the assertion fails. -/
theorem LinesRead.stopped (hstop : (seen 0 input).2 = true)
    (hroom : hasRoom 0 (seen 0 input).1 = true) (hline : logicalLines (seen 0 input).1 = [line]) :
    LinesRead strtod table ignoreUnknown input loaded (.error .assertion) := by
  refine ⟨fun loaded' => iff_of_false nofun fun h => ?_, iff_of_true rfl ⟨hstop, hroom, loaded, ?_⟩⟩
  · cases hstop.symm.trans h.1
  · rw [hline]
    exact .nil

/-- A line that is refused ends the reading. -/
theorem LinesRead.refused (hline : LineRead 0 input line r) {messages : List String}
    (hparse : doParseLine strtod fileName lineNumber line table ignoreUnknown loaded =
      .error messages) :
    LinesRead strtod table ignoreUnknown input loaded (.error (.message messages)) := by
  refine ⟨fun loaded' => iff_of_false nofun ?_, iff_of_false nofun ?_⟩
  · rintro ⟨-, -, hlines⟩
    rcases hline.lines with ⟨-, heq⟩ | ⟨-, heq⟩
    all_goals
      rw [heq] at hlines
      exact Lines.cons_error hparse hlines
  · rintro ⟨hstop, -, loaded', hlines⟩
    rcases hline.lines with ⟨hend, -⟩ | ⟨-, heq⟩
    · rw [hline.stops, hend, seen_nil] at hstop
      cases hstop
    · rw [heq, List.dropLast_cons_of_ne_nil logicalLines_ne_nil] at hlines
      exact Lines.cons_error hparse hlines

/-- A line that is read at the end of the file is the last. -/
theorem LinesRead.last (hline : LineRead 0 input line r) (heof : r.eof = true)
    (hparse : doParseLine strtod fileName lineNumber line table ignoreUnknown loaded = .ok between) :
    LinesRead strtod table ignoreUnknown input loaded (.ok between) := by
  obtain ⟨hend, heq⟩ := hline.lines.resolve_right fun h => by cases heof.symm.trans h.1
  have hstops := hline.stops
  rw [hend, seen_nil] at hstops
  have hroom := hline.room
  rw [heof, Bool.true_or] at hroom
  refine ⟨fun loaded' => ?_, iff_of_false nofun fun h => ?_⟩
  · rw [heq, Lines.cons_ok hparse, Lines.nil_iff, Except.ok.injEq, hstops, hroom]
    exact ⟨fun h => ⟨rfl, rfl, h⟩, fun h => h.2.2⟩
  · cases hstops.symm.trans h.1

/-- Other lines are read on from. -/
theorem LinesRead.more (hline : LineRead 0 input line r) (heof : r.eof = false)
    (hparse : doParseLine strtod fileName lineNumber line table ignoreUnknown loaded = .ok between)
    (hmore : LinesRead strtod table ignoreUnknown r.input between result) :
    LinesRead strtod table ignoreUnknown input loaded result := by
  have hroom := hline.room
  rw [heof, Bool.false_or] at hroom
  constructor
  · intro loaded'
    rw [hmore.ok, hline.stops, hroom]
    rcases hline.lines with ⟨hend, heq⟩ | ⟨-, heq⟩
    · rw [heq, Lines.cons_ok hparse, Lines.nil_iff, hend, seen_nil]
      exact and_congr_right fun _ => and_congr_right fun _ => Lines.blank_iff
    · rw [heq, Lines.cons_ok hparse]
  · rw [hmore.assertion, hline.stops, hroom]
    rcases hline.lines with ⟨hend, -⟩ | ⟨-, heq⟩
    · rw [hend, seen_nil]
      exact iff_of_false (fun h => nomatch h.1) fun h => nomatch h.1
    · rw [heq, List.dropLast_cons_of_ne_nil logicalLines_ne_nil]
      simp only [Lines.cons_ok hparse]

end read

/-- The lines of a file are loaded as they are seen. -/
theorem loadLines_seen (hbuffer : buffer.length = lineSize) :
    LinesRead strtod table ignoreUnknown input loaded
      (loadLines strtod fileName table ignoreUnknown buffer lineNumber input loaded) := by
  induction hn : input.length using Nat.strongRecOn generalizing buffer lineNumber input loaded with
  | _ n ih =>
      have hread := @readLine_seen input [] buffer lineNumber List.not_mem_nil
        (by rw [hbuffer]; rfl) (by rw [hbuffer]; decide)
      rw [List.nil_append, hbuffer, List.length_nil] at hread
      rcases hread with ⟨messages, hread, hroom⟩ | ⟨hread, hstop, hroom, line, hline⟩ |
        ⟨r, line, hread, hstring, hline⟩
      · rw [loadLines_error hread]
        exact .no_room hroom messages
      · rw [loadLines_error hread]
        exact .stopped hstop hroom hline
      · have hsize : r.buffer.length = lineSize := by
          rcases @readLine_safe buffer input 0 lineSize lineNumber ⟨hbuffer, rfl, by decide⟩ with
            ⟨fault, hfault, -⟩ | ⟨r', hr, hsize⟩
          · cases hread.symm.trans hfault
          · obtain rfl := Except.ok.inj (hread.symm.trans hr)
            exact hsize
        rw [loadLines_ok hread, hstring, List.nil_append]
        cases hparse : doParseLine strtod fileName r.lineNumber line table ignoreUnknown loaded with
        | error messages => exact .refused hline hparse
        | ok between =>
            dsimp only
            by_cases heof : r.eof = true
            · rw [if_pos heof]
              exact .last hline heof hparse
            · rw [if_neg heof]
              refine .more hline (eq_false_of_ne_true heof) hparse ?_
              exact ih r.input.length (hn ▸ readLine_shorter hread heof) hsize rfl

end loop

end lines

/-! ### The law -/

section law
variable {δ : Type} (strtod : List Char → δ × List Char × Bool) (fileName : String)
  (table : List Entry) (ignoreUnknown : Bool) (buffer : Fin lineSize → Char) (content : List Char)

/-- The loading is exact. -/
structure Exact : Prop where
  /-- It succeeds exactly on the well formed files. -/
  succeeds : (∃ loaded, loadConfigFile strtod fileName table ignoreUnknown buffer content =
    .ok loaded) ↔ WellFormed (stated strtod) table ignoreUnknown content
  /-- Then every target holds what is denoted. -/
  values : ∀ loaded, loadConfigFile strtod fileName table ignoreUnknown buffer content =
    .ok loaded → ∀ ix < table.length, ∃ v, Gives (stated strtod) table content ix v ∧
      loaded.target ix = some v
  /-- No assertion fails and nothing is written past the buffer. -/
  safe : ∀ fault, loadConfigFile strtod fileName table ignoreUnknown buffer content =
    .error fault → ∃ messages, fault = .message messages
  /-- A line that is too long is an error. -/
  overlong : hasRoom 0 content = false → ∃ messages,
    loadConfigFile strtod fileName table ignoreUnknown buffer content = .error (.message messages)

/-- Nothing that is hidden, cut down or too long makes a difference. -/
structure Faithful : Prop where
  /-- Where a null character stops the reading, an error is found before it. -/
  stops : (seen 0 content).2 = true → hasRoom 0 (seen 0 content).1 = true →
    ¬ InOrder (taken strtod) table ignoreUnknown (logicalLines (seen 0 content).1).dropLast
  /-- What is seen of the file and taken is what the file says. -/
  accepted : (seen 0 content).2 = false →
    WellFormed (taken strtod) table ignoreUnknown (seen 0 content).1 →
    WellFormed (stated strtod) table ignoreUnknown content ∧ ∀ ix < table.length, ∀ v,
      Gives (taken strtod) table (seen 0 content).1 ix v → Gives (stated strtod) table content ix v
  /-- What the file says is seen and taken. -/
  wellFormed : WellFormed (stated strtod) table ignoreUnknown content →
    (seen 0 content).2 = false ∧ WellFormed (taken strtod) table ignoreUnknown (seen 0 content).1

/-- No name of a line is too long for the parser. -/
def NamesFit : Prop :=
  ∀ line ∈ logicalLines content, ∀ name text, Assignment line name text → name.length < nameLength

end law

section results
variable {δ : Type} {strtod : List Char → δ × List Char × Bool} {fileName : String}
  {table : List Entry} {ignoreUnknown : Bool} {buffer : Fin lineSize → Char} {content : List Char}
  {loaded : Loaded δ}

/-- Nothing is loaded yet. -/
def nothing : Loaded δ := ⟨fun _ => false, fun _ => none⟩

/-- `load_config_file` after its lines. -/
theorem loadConfigFile_lines : LinesRead strtod table ignoreUnknown content nothing
    (loadLines strtod fileName table ignoreUnknown (List.ofFn buffer) 0 content nothing) :=
  loadLines_seen List.length_ofFn

theorem loadConfigFile_error {fault : Fault}
    (h : loadConfigFile strtod fileName table ignoreUnknown buffer content = .error fault) :
    loadLines strtod fileName table ignoreUnknown (List.ofFn buffer) 0 content nothing =
      .error fault ∨ ∃ messages, fault = .message messages := by
  unfold loadConfigFile at h
  split at h
  · rename_i hlines
    rw [nothing, hlines, Except.error.inj h]
    exact .inl rfl
  · split at h
    · exact .inr ⟨_, (Except.error.inj h).symm⟩
    · cases h

/-- Nothing is written past the line buffer, whatever the file holds. -/
theorem loadConfigFile_safe :
    loadConfigFile strtod fileName table ignoreUnknown buffer content ≠ .error .overrun := by
  intro h
  rcases loadConfigFile_error h with hlines | ⟨messages, hmessages⟩
  · exact loadLines_safe List.length_ofFn hlines
  · cases hmessages

/-- The assertion fails where the reading stops before an error. -/
theorem loadConfigFile_assertion :
    loadConfigFile strtod fileName table ignoreUnknown buffer content = .error .assertion ↔
      (seen 0 content).2 = true ∧ hasRoom 0 (seen 0 content).1 = true ∧
        InOrder (taken strtod) table ignoreUnknown (logicalLines (seen 0 content).1).dropLast := by
  have hlines := @loadConfigFile_lines _ strtod fileName table ignoreUnknown buffer content
  have horder : (∃ loaded', Lines strtod table ignoreUnknown
      (logicalLines (seen 0 content).1).dropLast nothing loaded') ↔
      InOrder (taken strtod) table ignoreUnknown (logicalLines (seen 0 content).1).dropLast :=
    ⟨fun ⟨_, h⟩ => h.inOrder, fun h => h.exists_lines fun _ _ _ _ _ => rfl⟩
  rw [← horder, ← hlines.assertion]
  constructor
  · intro h
    rcases loadConfigFile_error h with hlines | ⟨messages, hmessages⟩
    · exact hlines
    · cases hmessages
  · intro h
    unfold loadConfigFile
    rw [show (⟨fun _ => false, fun _ => none⟩ : Loaded δ) = nothing from rfl, h]

/-- What is loaded. -/
theorem loadConfigFile_iff :
    loadConfigFile strtod fileName table ignoreUnknown buffer content = .ok loaded ↔
      (seen 0 content).2 = false ∧ hasRoom 0 (seen 0 content).1 = true ∧
        Lines strtod table ignoreUnknown (logicalLines (seen 0 content).1) nothing loaded ∧
          ∀ ix < table.length, loaded.seen ix = true := by
  have hok := (@loadConfigFile_lines _ strtod fileName table ignoreUnknown buffer content).ok
  unfold loadConfigFile
  rw [show (⟨fun _ => false, fun _ => none⟩ : Loaded δ) = nothing from rfl]
  cases hlines : loadLines strtod fileName table ignoreUnknown (List.ofFn buffer) 0 content
      nothing with
  | error fault =>
      constructor
      · intro h
        cases h
      · rintro ⟨hstop, hroom, horder, -⟩
        cases hlines.symm.trans ((hok loaded).mpr ⟨hstop, hroom, horder⟩)
  | ok loaded' =>
      have horder := (hok loaded').mp hlines
      have hunique : ∀ loaded, Lines strtod table ignoreUnknown (logicalLines (seen 0 content).1)
          nothing loaded → loaded = loaded' := fun loaded h =>
        (Except.ok.inj (hlines.symm.trans ((hok loaded).mpr ⟨horder.1, horder.2.1, h⟩))).symm
      dsimp only
      cases hfind : (List.range table.length).find? fun ix => !loaded'.seen ix with
      | some ix =>
          have hix := List.mem_range.mp (List.mem_of_find?_eq_some hfind)
          have hunseen := List.find?_some hfind
          constructor
          · intro h
            cases h
          · rintro ⟨-, -, hlines', hseen⟩
            rw [← hunique loaded hlines', hseen ix hix] at hunseen
            cases hunseen
      | none =>
          have hseen : ∀ ix < table.length, loaded'.seen ix = true := by
            intro ix hix
            have hnot := List.find?_eq_none.mp hfind ix (List.mem_range.mpr hix)
            rwa [Bool.not_eq_true, Bool.not_eq_false'] at hnot
          constructor
          · intro h
            obtain rfl := Except.ok.inj h
            exact ⟨horder.1, horder.2.1, horder.2.2, hseen⟩
          · rintro ⟨-, -, hlines', -⟩
            rw [hunique loaded hlines']

/-- A file is loaded exactly if what is seen of it is well formed as the parser takes it. -/
theorem loaded_iff :
    (∃ loaded, loadConfigFile strtod fileName table ignoreUnknown buffer content = .ok loaded) ↔
      (seen 0 content).2 = false ∧
        WellFormed (taken strtod) table ignoreUnknown (seen 0 content).1 := by
  simp only [loadConfigFile_iff]
  constructor
  · rintro ⟨loaded, hstop, hroom, hlines, hseen⟩
    refine ⟨hstop, hroom, hlines.inOrder, fun ix hix => ?_⟩
    rcases hlines.seen (hseen ix hix) with hbefore | ⟨line, hline, v, hassigned⟩
    · cases hbefore
    · exact ⟨v, line, hline, hassigned⟩
  · rintro ⟨hstop, h⟩
    obtain ⟨loaded, hlines⟩ : ∃ loaded, Lines strtod table ignoreUnknown
        (logicalLines (seen 0 content).1) nothing loaded :=
      h.lines.exists_lines fun _ _ _ _ _ => rfl
    refine ⟨loaded, hstop, h.room, hlines, fun ix hix => ?_⟩
    obtain ⟨v, line, hline, hassigns⟩ := h.every ix hix
    exact (hlines.assigned hline hassigns).2.1

/-- The targets hold what is taken. -/
theorem loadConfigFile_target
    (h : loadConfigFile strtod fileName table ignoreUnknown buffer content = .ok loaded) {ix : ℕ}
    {v : Value δ} (hgives : Gives (taken strtod) table (seen 0 content).1 ix v) :
    loaded.target ix = some v := by
  obtain ⟨line, hline, hassigns⟩ := hgives
  exact ((loadConfigFile_iff.mp h).2.2.1.assigned hline hassigns).2.2

/-- **The law of `load_config_file`.**  The loading is exact on the files of which nothing is hidden,
cut down or too long, and on no others; and it never writes past the line buffer. -/
theorem exact_iff_faithful :
    Exact strtod fileName table ignoreUnknown buffer content ↔
      Faithful strtod table ignoreUnknown content := by
  constructor
  · intro h
    constructor
    · intro hstop hroom horder
      obtain ⟨messages, hmessages⟩ :=
        h.safe .assertion (loadConfigFile_assertion.mpr ⟨hstop, hroom, horder⟩)
      cases hmessages
    · intro hstop htaken
      obtain ⟨loaded, hloaded⟩ := (@loaded_iff _ strtod fileName _ _ buffer _).mpr ⟨hstop, htaken⟩
      refine ⟨h.succeeds.mp ⟨loaded, hloaded⟩, fun ix hix v hgives => ?_⟩
      obtain ⟨v', hgives', htarget⟩ := h.values loaded hloaded ix hix
      rw [loadConfigFile_target hloaded hgives] at htarget
      rwa [Option.some.inj htarget]
    · exact fun hstated => loaded_iff.mp (h.succeeds.mpr hstated)
  · intro h
    have hsafe : ∀ fault, loadConfigFile strtod fileName table ignoreUnknown buffer content =
        .error fault → ∃ messages, fault = .message messages := by
      intro fault hfault
      cases fault with
      | message messages => exact ⟨messages, rfl⟩
      | assertion =>
          obtain ⟨hstop, hroom, horder⟩ := loadConfigFile_assertion.mp hfault
          exact absurd horder (h.stops hstop hroom)
      | overrun => exact absurd hfault loadConfigFile_safe
    have hsucceeds := (@loaded_iff _ strtod fileName table ignoreUnknown buffer content).trans
      ⟨fun ⟨hstop, htaken⟩ => (h.accepted hstop htaken).1, h.wellFormed⟩
    refine ⟨hsucceeds, fun loaded hloaded ix hix => ?_, hsafe, fun hroom => ?_⟩
    · obtain ⟨hstop, htaken⟩ := loaded_iff.mp ⟨loaded, hloaded⟩
      obtain ⟨v, hgives⟩ := htaken.every ix hix
      exact ⟨v, (h.accepted hstop htaken).2 ix hix v hgives, loadConfigFile_target hloaded hgives⟩
    · cases hload : loadConfigFile strtod fileName table ignoreUnknown buffer content with
      | error fault =>
          obtain ⟨messages, rfl⟩ := hsafe fault hload
          exact ⟨messages, rfl⟩
      | ok loaded => cases hroom.symm.trans (hsucceeds.mp ⟨loaded, hload⟩).room

/-! ### Texts -/

theorem Assigns.taken {line : List Char} {ix : ℕ} {v : Value δ}
    (h : Assigns (stated strtod) table line ix v)
    (hfits : ∀ name text, Assignment line name text → name.length < nameLength) :
    Assigns (taken strtod) table line ix v := by
  obtain ⟨name, text, entry, hline, -, hlookup, hentry, hdenotes⟩ := h
  exact ⟨name, text, entry, hline, hfits name text hline, hlookup, hentry, Denotes.reads hdenotes⟩

/-- In a well formed file what is taken is what is stated. -/
theorem WellFormed.stated (h : WellFormed (stated strtod) table ignoreUnknown content)
    {line : List Char} (hline : line ∈ logicalLines content) {ix : ℕ} {v : Value δ}
    (htaken : Assigns (taken strtod) table line ix v) :
    Assigns (Config.stated strtod) table line ix v := by
  rcases h.lines.each line hline with hskipped | ⟨ix', v', hassigns⟩
  · exact absurd hskipped htaken.not_skipped
  · obtain ⟨name, text, entry, hassignment, hname, -⟩ := id htaken
    have hfits : ∀ name' text', Assignment line name' text' → name'.length < nameLength := by
      intro name' text' hline'
      obtain ⟨rfl, rfl⟩ := hassignment.unique hline'
      exact hname
    obtain ⟨rfl, rfl⟩ := htaken.unique (hassigns.taken hfits)
    exact hassigns

theorem WellFormed.taken (h : WellFormed (Config.stated strtod) table ignoreUnknown content)
    (hfits : NamesFit content) : WellFormed (taken strtod) table ignoreUnknown content where
  room := h.room
  lines := by
    refine ⟨fun line hline => (h.lines.each line hline).imp ?_ ?_, ?_⟩
    · rintro (hblank | ⟨hignore, name, text, hassignment, -, hnone⟩)
      · exact .inl hblank
      · exact .inr ⟨hignore, name, text, hassignment, hfits line hline name text hassignment, hnone⟩
    · rintro ⟨ix, v, hassigns⟩
      exact ⟨ix, v, hassigns.taken (hfits line hline)⟩
    · exact h.lines.once.imp_of_mem fun hline hline' honce ix v v' htaken htaken' =>
        honce ix v v' (h.stated hline htaken) (h.stated hline' htaken')
  every ix hix := by
    obtain ⟨v, line, hline, hassigns⟩ := h.every ix hix
    exact ⟨v, line, hline, hassigns.taken (hfits line hline)⟩

/-- The names of a file that is taken fit. -/
theorem WellFormed.namesFit (h : WellFormed (Config.taken strtod) table ignoreUnknown content) :
    NamesFit content := by
  intro line hline name text hassignment
  rcases h.lines.each line hline with (hblank | ⟨-, name', text', hassignment', hname, -⟩) |
    ⟨ix, v, name', text', entry, hassignment', hname, -⟩
  · exact absurd hblank hassignment.not_blank
  · obtain ⟨rfl, rfl⟩ := hassignment.unique hassignment'
    exact hname
  · obtain ⟨rfl, rfl⟩ := hassignment.unique hassignment'
    exact hname

/-- A text is faithful unless it is accepted only because an integer that is out of its range was cut
down, or is well formed but for the parser's limit on the names. -/
theorem faithful_text_iff (htext : nul ∉ content) :
    Faithful strtod table ignoreUnknown content ↔
      (WellFormed (taken strtod) table ignoreUnknown content →
        WellFormed (stated strtod) table ignoreUnknown content) ∧
      (WellFormed (stated strtod) table ignoreUnknown content → NamesFit content) := by
  have hseen : seen 0 content = (content, false) := seen_text htext
  constructor
  · intro h
    have haccepted := h.accepted
    have hwellFormed := h.wellFormed
    rw [hseen] at haccepted hwellFormed
    exact ⟨fun htaken => (haccepted rfl htaken).1, fun hstated => (hwellFormed hstated).2.namesFit⟩
  · rintro ⟨haccepted, hfits⟩
    constructor
    · rw [hseen]
      exact nofun
    · rw [hseen]
      refine fun _ htaken => ⟨haccepted htaken, fun ix _ v ⟨line, hline, hassigns⟩ => ?_⟩
      exact ⟨line, hline, (haccepted htaken).stated hline hassigns⟩
    · rw [hseen]
      exact fun hstated => ⟨rfl, hstated.taken (hfits hstated)⟩

/-- **The law of `load_config_file`.**  The loading is exact on the files of which nothing is hidden,
cut down or too long, and on no others; in a text nothing is hidden; and nothing is ever written past
the line buffer. -/
theorem load_config_file_iff (strtod : List Char → δ × List Char × Bool) (fileName : String)
    (table : List Entry) (ignoreUnknown : Bool) (buffer : Fin lineSize → Char)
    (content : List Char) :
    (Exact strtod fileName table ignoreUnknown buffer content ↔
      Faithful strtod table ignoreUnknown content) ∧
    (nul ∉ content → (Exact strtod fileName table ignoreUnknown buffer content ↔
      (WellFormed (taken strtod) table ignoreUnknown content →
        WellFormed (stated strtod) table ignoreUnknown content) ∧
      (WellFormed (stated strtod) table ignoreUnknown content → NamesFit content))) ∧
    loadConfigFile strtod fileName table ignoreUnknown buffer content ≠ .error .overrun :=
  ⟨exact_iff_faithful, fun htext => exact_iff_faithful.trans (faithful_text_iff htext),
    loadConfigFile_safe⟩

end results

/-! ### One key -/

/-- A table with one unsigned key. -/
def oneKey : List Entry := [⟨.uint, ['n']⟩]

/-- The line `n = text`. -/
def oneLine (text : List Char) : List Char := 'n' :: ' ' :: '=' :: ' ' :: text

theorem assignment_one {text : List Char} (htrim : IsTrimmed text) :
    Assignment (oneLine text) ['n'] text := by
  have hspace : IsSpace [' '] := fun c hc => List.mem_singleton.mp hc ▸ rfl
  have hname : IsName ['n'] :=
    ⟨⟨'n', rfl, by decide⟩, fun c hc => List.mem_singleton.mp hc ▸ by decide⟩
  exact ⟨[], [' '], [' '], rfl, nofun, hspace, hspace, hname, htrim⟩

/-- A file with some comments and the line. -/
theorem wellFormed_one (before : List (List Char)) {lang : Language Unit}
    {content text : List Char} {v : Value Unit} (htrim : IsTrimmed text)
    (hlines : logicalLines content = before ++ [oneLine text])
    (hbefore : ∀ line ∈ before, IsBlank line) (hroom : hasRoom 0 content = true)
    (hname : lang.name ['n']) (hreads : lang.reads .uint text v) :
    WellFormed lang oneKey false content := by
  have hassigns : Assigns lang oneKey (oneLine text) 0 v :=
    ⟨['n'], text, ⟨.uint, ['n']⟩, assignment_one htrim, hname, rfl, rfl, hreads⟩
  have hskipped : ∀ line ∈ before, IsSkipped lang oneKey false line := fun line hline =>
    .inl (hbefore line hline)
  refine ⟨hroom, ⟨?_, ?_⟩, ?_⟩
  · rw [hlines]
    exact List.forall_mem_append.mpr ⟨fun line hline => .inl (hskipped line hline),
      List.forall_mem_singleton.mpr (.inr ⟨0, v, hassigns⟩)⟩
  · rw [hlines]
    refine List.pairwise_append.mpr ⟨?_, List.pairwise_singleton _ _, ?_⟩
    · exact List.pairwise_of_forall_mem_list fun line hline line' _ ix w w' h =>
        absurd (hskipped line hline) h.not_skipped
    · exact fun line hline line' _ ix w w' h => absurd (hskipped line hline) h.not_skipped
  · intro ix hix
    obtain rfl : ix = 0 := Nat.lt_one_iff.mp hix
    refine ⟨v, oneLine text, ?_, hassigns⟩
    rw [hlines]
    exact List.mem_append_right _ (List.mem_singleton_self _)

theorem numeral_digits {digits : List Char} (hne : digits ≠ [])
    (hdigits : digits.all Char.isDigit) : Numeral digits (decimal digits) := by
  have h : Numeral (digits ++ []) (decimal digits) :=
    .unsigned hne (List.all_eq_true.mp hdigits) nofun
  rwa [List.append_nil] at h

theorem isTrimmed_digits {digits : List Char} (hdigits : digits.all Char.isDigit) :
    IsTrimmed digits := by
  intro c hc
  have hdigit := List.all_eq_true.mp hdigits c (List.mem_of_mem_head? hc)
  apply not_space_of_alphanum
  unfold Command.validAlphanumChar
  rw [hdigit, Bool.or_true]

/-- A comment with a null character. -/
def hiddenComment : List Char := '#' :: nul :: 'x' :: '\n' :: oneLine ['7']

theorem seen_hiddenComment : seen 0 hiddenComment = ('#' :: '\n' :: oneLine ['7'], false) := by
  have hline : seen 0 (oneLine ['7']) = (oneLine ['7'], false) := seen_text (by decide)
  have hpiece : fgets 199 hiddenComment = (['#', nul, 'x', '\n'], oneLine ['7']) := by decide
  have hspan : Parsing.Span (fun c => decide (c ≠ nul ∧ c ≠ '\n')) ['#', nul, 'x', '\n'] ['#']
      [nul, 'x', '\n'] :=
    ⟨rfl, fun c hc => List.mem_singleton.mp hc ▸ by decide, by rintro _ ⟨⟩; rfl⟩
  rw [seen_piece (n := 200) rfl hpiece (by decide) (by decide) hspan, if_pos (by decide),
    if_neg (by decide), hline]
  rfl

/-- A number in the range is loaded, though there is a null character in a comment. -/
theorem load_config_file_seven :
    Exact (fun s => ((), s, false)) "system.config" oneKey false (fun _ => nul) hiddenComment := by
  have hnumeral : Numeral ['7'] (7 : ℕ) := numeral_digits (by decide) (by decide)
  have htrim : IsTrimmed ['7'] := isTrimmed_digits (by decide)
  have hblank : ∀ text, IsBlank ('#' :: text) := fun text => ⟨[], _, rfl, nofun, .inr rfl⟩
  have hstated : WellFormed (stated fun s => ((), s, false)) oneKey false hiddenComment :=
    wellFormed_one [['#', nul, 'x']] htrim (by decide)
      (List.forall_mem_singleton.mpr (hblank _)) (by decide) trivial (.uint hnumeral (by decide))
  have hseen : ∀ {lang : Language Unit}, lang.name ['n'] → lang.reads .uint ['7'] (.uint 7) →
      WellFormed lang oneKey false ('#' :: '\n' :: oneLine ['7']) :=
    wellFormed_one [['#']] htrim (by decide) (List.forall_mem_singleton.mpr (hblank _))
      (by decide)
  have htaken : WellFormed (taken fun s => ((), s, false)) oneKey false
      ('#' :: '\n' :: oneLine ['7']) :=
    hseen (by decide : 1 < nameLength) (.uint hnumeral (by decide))
  have hsaid : WellFormed (stated fun s => ((), s, false)) oneKey false
      ('#' :: '\n' :: oneLine ['7']) := hseen trivial (.uint hnumeral (by decide))
  refine (load_config_file_iff (fun s => ((), s, false)) "system.config" oneKey false (fun _ => nul)
    hiddenComment).1.mpr ⟨?_, ?_, ?_⟩
  · rw [seen_hiddenComment]
    exact nofun
  · rw [seen_hiddenComment]
    refine fun _ _ => ⟨hstated, fun ix hix v ⟨line, hline, hassigns⟩ => ?_⟩
    refine ⟨line, ?_, hsaid.stated hline hassigns⟩
    rcases List.mem_cons.mp hline with rfl | hline
    · exact absurd (.inl (hblank []) : IsSkipped (taken fun s => ((), s, false)) oneKey false ['#'])
        hassigns.not_skipped
    · exact List.mem_cons_of_mem _ hline
  · rw [seen_hiddenComment]
    exact fun _ => ⟨rfl, htaken⟩

/-- `n = 4294967297` is loaded as 1. -/
theorem load_config_file_cut : ¬ ∀ (table : List Entry) (ignoreUnknown : Bool)
    (buffer : Fin lineSize → Char) (content : List Char),
    Exact (fun s => ((), s, false)) "system.config" table ignoreUnknown buffer content := by
  intro h
  have hexact := h oneKey false (fun _ => nul)
    (oneLine ['4', '2', '9', '4', '9', '6', '7', '2', '9', '7'])
  have hnumeral : Numeral ['4', '2', '9', '4', '9', '6', '7', '2', '9', '7'] (4294967297 : ℕ) :=
    numeral_digits (by decide) (by decide)
  have htrim : IsTrimmed ['4', '2', '9', '4', '9', '6', '7', '2', '9', '7'] :=
    isTrimmed_digits (by decide)
  have htaken : WellFormed (taken fun s => ((), s, false)) oneKey false
      (oneLine ['4', '2', '9', '4', '9', '6', '7', '2', '9', '7']) :=
    wellFormed_one [] htrim (by decide) nofun (by decide) (by decide : 1 < nameLength)
      (.uint hnumeral (by decide))
  have hseen : seen 0 (oneLine ['4', '2', '9', '4', '9', '6', '7', '2', '9', '7']) =
      (oneLine ['4', '2', '9', '4', '9', '6', '7', '2', '9', '7'], false) := seen_text (by decide)
  have hstated := hexact.succeeds.mp (loaded_iff.mpr (by rw [hseen]; exact ⟨rfl, htaken⟩))
  obtain ⟨v, line, hline, name, text, entry, hassignment, -, hlookup, hentry, hvalue⟩ :=
    hstated.every 0 (by decide)
  obtain rfl := List.mem_singleton.mp hline
  obtain ⟨rfl, rfl⟩ := hassignment.unique (assignment_one htrim)
  obtain rfl := Option.some.inj hentry
  have hvalue : Denotes (fun s => ((), s, false)) .uint
    ['4', '2', '9', '4', '9', '6', '7', '2', '9', '7'] v := hvalue
  cases hvalue with
  | @uint _ n hn hmax =>
      have hvalue := hn.unique htrim hnumeral
      omega

end Mbf.Config
