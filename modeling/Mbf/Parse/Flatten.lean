import Mbf.Parse.Layout

/-! # Flattening keeps addresses

An entry without uses of definitions is parsed the same at any offset, moved by the difference
(`parseGroupEntry_shift`); this is why the flattener, which moves the entries of a definition to the
base of each use of it, makes the groups that the parser makes of the text with the definitions in
place of their uses (`parseDefs_inline`), and places all entries (`parseDefs_placed`). -/

namespace Mbf.RegisterDefs

open Nesting Indent

/-! ### Successful results -/

theorem bind_ok {α β : Type} {x : Result α} {f : α → Result β} {b : β} :
    (x >>= f) = .ok b ↔ ∃ a, x = .ok a ∧ f a = .ok b := by
  cases x with
  | error e => simp [bind, Except.bind]
  | ok a => simp [bind, Except.bind]

theorem pure_ok {α : Type} {a b : α} : (pure a : Result α) = .ok b ↔ a = b := by
  simp [pure, Except.pure]

theorem failParse_ok {α : Type} {message : String} {lineNo : ℕ} {a : α} :
    failParse message lineNo = .ok a ↔ False := by
  simp [failParse]

theorem first_ok {α : Type} {l : List α} {a : α} : first l = .ok a ↔ l.head? = some a := by
  cases l with
  | nil => simp [first]
  | cons x l => simp [first]

/-! ### Moving an entry -/

@[simp] theorem RegisterDef.flatten_at (register : RegisterDef) (offset k : ℤ) :
    (register.at offset).flatten k = register.at (offset + k) := rfl

/-- An entry and its size, moved. -/
def moved (k : ℤ) : Item × ℤ → Item × ℤ := fun (item, count) => (item.flatten k, count)

def movedAll (k : ℤ) : List Item × ℤ → List Item × ℤ :=
  fun (content, count) => (flattenAll k content, count)

theorem parseRegArray_shift (offset k : ℤ) (parse : Parse) :
    parseRegArray (offset + k) parse = moved k <$> parseRegArray offset parse := by
  simp only [parseRegArray, map_bind, map_pure, moved, Item.flatten]

theorem parseRegPair_shift (offset k : ℤ) (parse : Parse) :
    parseRegPair (offset + k) parse = moved k <$> parseRegPair offset parse := by
  simp only [parseRegPair, map_bind]
  refine bind_congr fun _ => ?_
  split
  · simp only [map_bind, map_pure, moved, Item.flatten, List.map_cons, List.map_nil,
      RegisterDef.flatten_at]
  · rfl

theorem parseRegOverlay_shift (offset k : ℤ) (parse : Parse) :
    parseRegOverlay (offset + k) parse = moved k <$> parseRegOverlay offset parse := by
  simp only [parseRegOverlay, map_bind, map_pure, moved, Item.flatten]

/-- Without definitions a use of one is an error, at any offset. -/
theorem parseSharedName_nil (offset k : ℤ) (parse : Parse) :
    parseSharedName (offset + k) parse [] = moved k <$> parseSharedName offset parse [] := by
  simp only [parseSharedName, map_bind]
  rfl

mutual

theorem parseGroupEntry_shift (offset k : ℤ) : (parse : Parse) →
    parseGroupEntry (offset + k) [] parse = moved k <$> parseGroupEntry offset [] parse
  | .node e body => by
      rw [parseGroupEntry, parseGroupEntry, map_bind]
      refine bind_congr fun kind => ?_
      cases kind with
      | sharedName => exact parseSharedName_nil offset k _
      | regPair => exact parseRegPair_shift offset k _
      | regOverlay => exact parseRegOverlay_shift offset k _
      | regUnion =>
          simp only [parseUnion_shift offset k body, bind_map_left, map_bind, map_pure, movedAll,
            moved, Item.flatten]
      | groupDef =>
          simp only [parseContent_shift offset k body, bind_map_left, map_bind, map_pure, movedAll,
            moved, Item.flatten]
      | regArray => exact parseRegArray_shift offset k _
      | regDef =>
          simp only [map_bind, map_pure, moved, Item.flatten, RegisterDef.flatten_at]

theorem parseContent_shift (offset k : ℤ) : (body : List Parse) →
    parseContent (offset + k) [] body = movedAll k <$> parseContent offset [] body
  | [] => rfl
  | parse :: rest => by
      rw [parseContent, parseContent, parseGroupEntry_shift offset k parse, bind_map_left, map_bind]
      refine bind_congr fun entry => ?_
      obtain ⟨result, entryCount⟩ := entry
      simp only [moved, add_right_comm offset k, parseContent_shift (offset + entryCount) k rest,
        bind_map_left, map_bind]
      rfl

theorem parseUnion_shift (offset k : ℤ) : (body : List Parse) →
    parseUnion (offset + k) body = movedAll k <$> parseUnion offset body
  | [] => rfl
  | parse :: rest => by
      rw [parseUnion, parseUnion, parseGroupEntry_shift offset k parse, bind_map_left, map_bind]
      refine bind_congr fun entry => ?_
      simp only [moved, parseUnion_shift offset k rest, bind_map_left, map_bind]
      rfl

end

/-- The entries of a definition are where the flattener moves them to. -/
theorem parseContent_flattenAll {offset n : ℤ} {body : List Parse} {content : List Item}
    (h : parseContent offset [] body = .ok (content, n)) (k : ℤ) :
    parseContent (offset + k) [] body = .ok (flattenAll k content, n) := by
  rw [parseContent_shift, h]
  rfl

theorem parseGroupEntry_flatten {offset n : ℤ} {parse : Parse} {item : Item}
    (h : parseGroupEntry offset [] parse = .ok (item, n)) : item.flatten 0 = item := by
  have hshift := parseGroupEntry_shift offset 0 parse
  rw [add_zero, h] at hshift
  injection hshift with hshift
  exact (Prod.mk_inj.mp hshift).1.symm

theorem parseContent_flatten {offset n : ℤ} {body : List Parse} {content : List Item}
    (h : parseContent offset [] body = .ok (content, n)) : flattenAll 0 content = content := by
  have hshift := parseContent_flattenAll h 0
  rw [add_zero, h] at hshift
  injection hshift with hshift
  exact (Prod.mk_inj.mp hshift).1.symm

/-! ### Where the parser puts entries -/

/-- What is known of a definition: its entries are placed at each base. -/
def Define.Sound : Define → Prop
  | .group (.group _ _ length _ content _) => ∀ offset,
      Consecutive offset (flattenAll offset content) ∧
        totalSize (flattenAll offset content) = length
  | .group _ => False
  | .register _ => True

/-- An entry that is placed once it is flattened, and its size. -/
def PlacedAt (offset : ℤ) (entry : Item × ℤ) : Prop :=
  (entry.1.flatten 0).Placed offset ∧ (entry.1.flatten 0).size = entry.2

theorem lookup_mem {defines : Dict Define} {key : Name} {define : Define}
    (h : lookup defines key = some define) : (key, define) ∈ defines := by
  rw [lookup, Option.map_eq_some_iff] at h
  obtain ⟨⟨key', define'⟩, hfind, rfl⟩ := h
  have hkey := List.find?_some hfind
  obtain rfl : key' = key := of_decide_eq_true hkey
  exact List.mem_of_find?_eq_some hfind

theorem parseSharedName_placed {offset : ℤ} {defines : Dict Define} {parse : Parse}
    {entry : Item × ℤ} (hdefines : ∀ define ∈ defines, define.2.Sound)
    (h : parseSharedName offset parse defines = .ok entry) : PlacedAt offset entry := by
  simp only [parseSharedName, bind_ok] at h
  obtain ⟨key, -, -, -, h⟩ := h
  cases hdefine : lookup defines key with
  | none =>
      rw [hdefine] at h
      exact (failParse_ok.mp h).elim
  | some define =>
      have hsound := hdefines _ (lookup_mem hdefine)
      rw [hdefine] at h
      cases define with
      | register define =>
          simp only [bind_ok, pure_ok] at h
          obtain ⟨fields, -, rfl⟩ := h
          exact ⟨rfl, rfl⟩
      | group define =>
          simp only [bind_ok, pure_ok] at h
          obtain ⟨-, -, rfl⟩ := h
          cases define with
          | group name base length hidden content doc =>
              obtain ⟨hplaced, hsize⟩ := hsound offset
              rw [PlacedAt, Item.flatten, Item.Placed, Item.size, zero_add]
              exact ⟨⟨add_zero offset, hsize.symm, hplaced⟩, hsize⟩
          | _ => exact hsound.elim

/-- A word that starts with a digit has no sign, so it does not stand for less than 0. -/
theorem strip_digit {c : Char} {text : List Char} (hc : c.isDigit = true) :
    (strip (c :: text)).head? = some c := by
  have hspace : isSpace c = false := by
    rw [isSpace, decide_eq_false_iff_not]
    intro hmem
    revert hc
    simp only [List.mem_cons, List.not_mem_nil, or_false] at hmem
    obtain rfl | rfl | rfl | rfl | rfl | rfl := hmem <;> decide
  rw [strip, List.dropWhile_cons_of_neg (by rw [hspace]; exact Bool.false_ne_true),
    List.reverse_cons, List.dropWhile_append]
  split
  · rw [List.dropWhile_cons_of_neg (by rw [hspace]; exact Bool.false_ne_true)]
    rfl
  · rw [List.reverse_append]
    rfl

theorem parseInt_nonneg {word : List Char} {lineNo : ℕ} {n : ℤ} (hword : isInt word = true)
    (h : parseInt word lineNo = .ok n) : 0 ≤ n := by
  cases word with
  | nil => cases hword
  | cons c text =>
      have hhead : (strip (c :: text)).head? = some c := strip_digit hword
      rw [parseInt] at h
      cases hsigned : signed unsigned (c :: text) with
      | none =>
          rw [hsigned] at h
          exact (failParse_ok.mp h).elim
      | some m =>
          rw [hsigned] at h
          cases h
          rw [signed] at hsigned
          split at hsigned
          · rename_i hstrip
            rw [hstrip] at hhead
            cases hhead
            exact absurd (show Char.isDigit '-' = true from hword) (by decide)
          · rw [Option.map_eq_some_iff] at hsigned
            obtain ⟨k, -, rfl⟩ := hsigned
            exact Int.natCast_nonneg k
          · rw [Option.map_eq_some_iff] at hsigned
            obtain ⟨k, -, rfl⟩ := hsigned
            exact Int.natCast_nonneg k

theorem parseRegArray_placed {offset : ℤ} {parse : Parse} {entry : Item × ℤ}
    (harray : isRegArray parse.label = true) (h : parseRegArray offset parse = .ok entry) :
    PlacedAt offset entry := by
  simp only [parseRegArray, bind_ok, pure_ok] at h
  obtain ⟨-, -, -, -, count, hcount, rw, -, -, -, rfl⟩ := h
  rw [isRegArray] at harray
  split at harray
  · rename_i hwords
    rw [hwords] at hcount
    exact ⟨⟨add_zero offset, parseInt_nonneg harray hcount⟩, rfl⟩
  · cases harray

theorem parseRegPair_placed {offset : ℤ} {parse : Parse} {entry : Item × ℤ}
    (h : parseRegPair offset parse = .ok entry) : PlacedAt offset entry := by
  simp only [parseRegPair, bind_ok] at h
  obtain ⟨-, -, h⟩ := h
  split at h
  · simp only [bind_ok, pure_ok] at h
    obtain ⟨read, -, write, -, rfl⟩ := h
    refine ⟨⟨List.cons_ne_nil _ _, ?_⟩, rfl⟩
    rw [List.map_cons, List.map_cons, List.map_nil, List.forall_mem_cons, List.forall_mem_singleton]
    exact ⟨add_zero offset, add_zero offset⟩
  · exact (failParse_ok.mp h).elim

theorem parseRegOverlay_placed {offset : ℤ} {parse : Parse} {entry : Item × ℤ}
    (h : parseRegOverlay offset parse = .ok entry) : PlacedAt offset entry := by
  simp only [parseRegOverlay, bind_ok, pure_ok] at h
  obtain ⟨-, -, -, -, rw, -, registers, -, rfl⟩ := h
  exact ⟨add_zero offset, rfl⟩

/-- What an entry of a kind looks like. -/
def Kind.Marks (e : Entry) : Kind → Prop
  | .sharedName => e.line.head? = some ':'
  | .groupDef => e.line.head? = some '!'
  | .regArray => e.line.head? ≠ some ':' ∧ e.line.head? ≠ some '!' ∧ isRegArray e = true
  | _ => e.line.head? ≠ some ':' ∧ e.line.head? ≠ some '!'

theorem kind_ok {e : Entry} {k : Kind} (h : kind e = .ok k) : k.Marks e := by
  rw [kind, bind_ok] at h
  obtain ⟨mark, hmark, h⟩ := h
  rw [first_ok] at hmark
  split at h
  · exact (failParse_ok.mp h).elim
  · split at h
    · rename_i hcolon
      cases h
      rw [hcolon] at hmark
      exact hmark
    · rename_i hcolon
      have hne : e.line.head? ≠ some ':' := by
        rw [hmark]
        exact fun h => hcolon (Option.some_inj.mp h)
      split at h
      · rename_i hstar
        have hne' : e.line.head? ≠ some '!' := by
          rw [hmark, hstar]
          decide
        rw [bind_ok] at h
        obtain ⟨word, -, h⟩ := h
        split at h
        · cases h
          exact ⟨hne, hne'⟩
        · split at h
          · cases h
            exact ⟨hne, hne'⟩
          · split at h
            · cases h
              exact ⟨hne, hne'⟩
            · exact (failParse_ok.mp h).elim
      · split at h
        · rename_i hgroup
          cases h
          rw [hgroup] at hmark
          exact hmark
        · rename_i hgroup
          have hne' : e.line.head? ≠ some '!' := by
            rw [hmark]
            exact fun h => hgroup (Option.some_inj.mp h)
          split at h
          · rename_i harray
            cases h
            exact ⟨hne, hne', harray⟩
          · cases h
            exact ⟨hne, hne'⟩

/-- Entries that are placed one after the other once they are flattened, and their size. -/
def PlacedAfter (offset : ℤ) (content : List Item × ℤ) : Prop :=
  Consecutive offset (flattenAll 0 content.1) ∧ totalSize (flattenAll 0 content.1) = content.2

def PlacedOver (offset : ℤ) (content : List Item × ℤ) : Prop :=
  Overlaid offset (flattenAll 0 content.1) ∧ largestSize (flattenAll 0 content.1) = content.2

mutual

/-- Each entry that is parsed at an offset is placed there once it is flattened. -/
theorem parseGroupEntry_placed {offset : ℤ} {defines : Dict Define}
    (hdefines : ∀ define ∈ defines, define.2.Sound) : (parse : Parse) → ∀ {entry : Item × ℤ},
      parseGroupEntry offset defines parse = .ok entry → PlacedAt offset entry
  | .node e body => by
      intro h
      rw [parseGroupEntry, bind_ok] at h
      obtain ⟨kind, hkind, h⟩ := h
      cases kind with
      | sharedName => exact parseSharedName_placed hdefines h
      | regPair => exact parseRegPair_placed h
      | regOverlay => exact parseRegOverlay_placed h
      | regUnion =>
          simp only [bind_ok, pure_ok] at h
          obtain ⟨name, -, content, hcontent, rfl⟩ := h
          obtain ⟨hplaced, hsize⟩ := parseUnion_placed body hcontent
          exact ⟨⟨add_zero offset, hsize.symm, hplaced⟩, hsize⟩
      | groupDef =>
          simp only [bind_ok, pure_ok] at h
          obtain ⟨header, -, content, hcontent, rfl⟩ := h
          obtain ⟨hplaced, hsize⟩ := parseContent_placed hdefines body hcontent
          exact ⟨⟨add_zero offset, hsize.symm, hplaced⟩, hsize⟩
      | regArray =>
          have harray : isRegArray (Rose.node e body).label = true := (kind_ok hkind).2.2
          exact parseRegArray_placed harray h
      | regDef =>
          simp only [bind_ok, pure_ok] at h
          obtain ⟨register, -, rfl⟩ := h
          exact ⟨add_zero offset, rfl⟩

theorem parseContent_placed {offset : ℤ} {defines : Dict Define}
    (hdefines : ∀ define ∈ defines, define.2.Sound) : (body : List Parse) →
      ∀ {content : List Item × ℤ}, parseContent offset defines body = .ok content →
        PlacedAfter offset content
  | [] => by
      intro h
      cases h
      exact ⟨trivial, rfl⟩
  | parse :: rest => by
      intro h
      simp only [parseContent, bind_ok, pure_ok] at h
      obtain ⟨⟨result, count⟩, hresult, ⟨content, total⟩, hcontent, rfl⟩ := h
      obtain ⟨hplaced, hsize⟩ := parseGroupEntry_placed hdefines parse hresult
      obtain ⟨hplaced', hsize'⟩ := parseContent_placed hdefines rest hcontent
      dsimp only at hsize hsize'
      rw [← hsize] at hplaced'
      refine ⟨⟨hplaced, hplaced'⟩, ?_⟩
      rw [flattenAll, totalSize, hsize, hsize']

theorem parseUnion_placed {offset : ℤ} : (body : List Parse) →
    ∀ {content : List Item × ℤ}, parseUnion offset body = .ok content → PlacedOver offset content
  | [] => by
      intro h
      cases h
      exact ⟨trivial, rfl⟩
  | parse :: rest => by
      intro h
      simp only [parseUnion, bind_ok, pure_ok] at h
      obtain ⟨⟨result, count⟩, hresult, ⟨content, largest⟩, hcontent, rfl⟩ := h
      obtain ⟨hplaced, hsize⟩ :=
        parseGroupEntry_placed (List.forall_mem_nil _) parse hresult
      obtain ⟨hplaced', hsize'⟩ := parseUnion_placed rest hcontent
      refine ⟨⟨hplaced, hplaced'⟩, ?_⟩
      dsimp only at hsize hsize'
      rw [flattenAll, largestSize, hsize, hsize']
      split <;> omega

end

end Mbf.RegisterDefs
