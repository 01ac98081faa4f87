import Mbf.Parse.Inline

/-! # Addresses of a file

`Follows` relates the parser on a file to the parser on the file with definitions in place of their
uses: entry by entry, the second has made what the flattener makes of the groups of the first, and
these groups are placed. -/

namespace Mbf.RegisterDefs

open Nesting Indent

/-! ### Names of definitions -/

/-- The first word of a line starts with the first character of the line. -/
theorem words_head {line : List Char} {c : Char} {word : List Char}
    (hline : line.head? = some c) (hc : isSpace c = false)
    (hword : (words line).head? = some word) : word.head? = some c := by
  obtain ⟨rest, rfl⟩ := List.head?_eq_some_iff.mp hline
  obtain ⟨first, others, hsplit⟩ := List.exists_cons_of_ne_nil (List.splitOnP_ne_nil isSpace rest)
  rw [words, List.splitOnP_cons_eq_if_modifyHead, hc, if_neg Bool.false_ne_true, hsplit,
    List.modifyHead_cons, List.filter_cons_of_pos (by simp)] at hword
  cases hword
  rfl

theorem dropWhile_name {name : Name} (h : isName name = true) :
    name.dropWhile (· = '!') = name := by
  obtain ⟨c, rest, rfl, hc⟩ := isName_head h
  refine List.dropWhile_cons_of_neg ?_
  rw [decide_eq_true_iff]
  rintro rfl
  exact absurd hc (by decide)

/-- A group is defined under the name in its line. -/
theorem groupHeader_definedName {e : Entry} {name : Name} {hidden : Bool}
    (hgroup : e.line.head? = some '!') (h : groupHeader e = .ok (name, hidden)) :
    definedName e = name := by
  simp only [groupHeader, bind_ok, first_ok, checkName_ok, pure_ok] at h
  obtain ⟨word, hword, mark, hmark, -, hname, -, -, h⟩ := h
  obtain ⟨rfl, rfl⟩ := Prod.mk_inj.mp h
  obtain ⟨rest, rfl⟩ := List.head?_eq_some_iff.mp (words_head hgroup (by decide) hword)
  rw [definedName, List.headD_eq_head?_getD, hword, Option.getD_some,
    List.dropWhile_cons_of_pos (by decide)]
  rw [List.tail_cons] at hmark hname ⊢
  obtain ⟨rest, rfl⟩ := List.head?_eq_some_iff.mp hmark
  by_cases hhidden : mark = '!'
  · subst hhidden
    rw [decide_eq_true rfl, if_pos rfl, List.tail_cons] at hname ⊢
    rw [List.dropWhile_cons_of_pos (by decide), dropWhile_name hname]
  · rw [decide_eq_false hhidden, if_neg Bool.false_ne_true] at hname ⊢
    exact dropWhile_name hname

/-- So is a register. -/
theorem parseRegDef_definedName {parse : Parse} {define : RegisterDef}
    (h : parseRegDef parse none none = .ok define) : definedName parse.label = define.name := by
  obtain ⟨hwords, hname, -, -⟩ := parseRegDef_eq_ok.mp h
  rw [definedName, hwords, List.headD_cons, dropWhile_name hname]

/-- A definition is what is parsed of its text, under its name. -/
theorem parseSharedDef_ok {e : Entry} {body : List Parse} {defines defines' : Dict Define}
    (h : parseSharedDef (.node e body) defines = .ok defines') :
    ∃ define : Define, define.Of (.node { e with line := e.line.tail } body) ∧
      defines' = defines.set (definedName { e with line := e.line.tail }) define := by
  simp only [parseSharedDef, Rose.label, Rose.children, bind_ok, first_ok] at h
  obtain ⟨mark, hmark, h⟩ := h
  split at h
  · rename_i hgroup
    subst hgroup
    simp only [bind_ok, pure_ok] at h
    obtain ⟨⟨group, count⟩, hparse, ⟨name, hidden⟩, hheader, rfl⟩ := h
    refine ⟨.group group, ⟨hmark, count, hparse⟩, ?_⟩
    rw [groupHeader_definedName hmark hheader]
  · rename_i hregister
    simp only [bind_ok, pure_ok] at h
    obtain ⟨register, hparse, rfl⟩ := h
    have hname := parseRegDef_definedName hparse
    rw [Rose.label] at hname
    refine ⟨.register register, ⟨?_, hparse⟩, ?_⟩
    · rw [Rose.label, hmark]
      exact fun h => hregister (Option.some_inj.mp h)
    · rw [hname]

/-- The entries of a definition are placed at each base. -/
theorem Define.Of.sound {text : Parse} {define : Define} (h : define.Of text) : define.Sound := by
  cases define with
  | register => trivial
  | group group =>
      obtain ⟨-, count, hparse⟩ := h
      obtain ⟨name, hidden, content, -, hcontent, rfl⟩ := parseGroupDef_ok hparse
      intro offset
      have hmoved := parseContent_flattenAll hcontent offset
      rw [zero_add] at hmoved
      obtain ⟨hplaced, hsize⟩ := parseContent_placed (List.forall_mem_nil _) text.children hmoved
      dsimp only at hplaced hsize
      rw [parseContent_flatten hmoved] at hplaced hsize
      exact ⟨hplaced, hsize⟩

/-! ### Entry by entry -/

/-- Where the parser on a file, with the texts of the definitions so far, and the parser on the file
with definitions in place are. -/
structure Follows (p : Parsing) (texts : Dict Parse) (q : Parsing) : Prop where
  defined : Defined p.defines texts
  placed : ∀ group ∈ flattenAll 0 p.groups, group.Placed 0
  defines : q.defines = []
  groups : List.Forall₂ SameAs (flattenAll 0 p.groups) q.groups
  constants : q.constants = p.constants

theorem flattenAll_append (k : ℤ) (content content' : List Item) :
    flattenAll k (content ++ content') = flattenAll k content ++ flattenAll k content' := by
  induction content with
  | nil => rfl
  | cons item content ih => rw [List.cons_append, flattenAll, flattenAll, ih, List.cons_append]

theorem Defined.sound {defines : Dict Define} {texts : Dict Parse} (h : Defined defines texts) :
    ∀ define ∈ defines, define.2.Sound := by
  induction h with
  | nil => exact List.forall_mem_nil _
  | cons hhead _ ih => exact List.forall_mem_cons.mpr ⟨hhead.2.sound, ih⟩

/-- A group of the file is an entry of a group. -/
theorem parseGroupDef_eq {e : Entry} (hgroup : e.line.head? = some '!') (offset : ℤ)
    (body : List Parse) (defines : Dict Define) :
    parseGroupDef offset (.node e body) defines =
      parseGroupEntry offset defines (.node e body) := by
  rw [parseGroupEntry, kind_group hgroup]
  rfl

section step
variable {p p' q : Parsing} {texts : Dict Parse} {e : Entry} {body : List Parse}

/-- A definition goes into the texts. -/
theorem Follows.define (hf : Follows p texts q) (hcolon : e.line.head? = some ':')
    (h : parseRegisterDefEntry p (.node e body) = .ok p') :
    let e := { e with line := e.line.tail }
    Follows p' (texts.set (definedName e) (.node e body)) q := by
  simp only [parseRegisterDefEntry, bind_ok, first_ok] at h
  obtain ⟨mark, hmark, h⟩ := h
  obtain rfl : ':' = mark := Option.some_inj.mp (hcolon.symm.trans hmark)
  rw [if_pos rfl, bind_ok] at h
  obtain ⟨defines, hdefines, h⟩ := h
  obtain rfl := pure_ok.mp h
  obtain ⟨define, hof, rfl⟩ := parseSharedDef_ok hdefines
  exact { hf with defined := hf.defined.set _ hof }

/-- A group or a constant is parsed in both. -/
theorem Follows.entry (hf : Follows p texts q) (hcolon : e.line.head? ≠ some ':')
    (h : parseRegisterDefEntry p (.node e body) = .ok p') :
    ∃ q', parseRegisterDefEntry q (inlineEntry texts (.node e body)) = .ok q' ∧
      Follows p' texts q' := by
  simp only [parseRegisterDefEntry, bind_ok, first_ok] at h
  obtain ⟨mark, hmark, h⟩ := h
  change e.line.head? = some mark at hmark
  have hne : mark ≠ ':' := by
    rintro rfl
    exact hcolon hmark
  rw [if_neg hne] at h
  split at h
  · rename_i hgroup
    rw [hgroup] at hmark
    rw [bind_ok] at h
    obtain ⟨⟨group, count⟩, hparse, h⟩ := h
    obtain rfl := pure_ok.mp h
    rw [parseGroupDef_eq hmark] at hparse
    obtain ⟨group', hparse', hsame⟩ := parseGroupEntry_inline hf.defined _ hparse
    have hplaced := (parseGroupEntry_placed hf.defined.sound _ hparse).1
    rw [inlineEntry, if_neg hcolon, if_pos hmark] at hparse' ⊢
    refine ⟨{ q with groups := q.groups ++ [group'] }, ?_, ?_⟩
    · rw [parseRegisterDefEntry, bind_ok]
      refine ⟨'!', first_ok.mpr hmark, ?_⟩
      rw [if_neg (by decide), if_pos rfl, bind_ok]
      refine ⟨(group', count), ?_, rfl⟩
      rw [parseGroupDef_eq hmark, hf.defines, hparse']
    · refine { hf with placed := ?_, groups := ?_ }
      · rw [flattenAll_append, List.forall_mem_append]
        exact ⟨hf.placed, List.forall_mem_singleton.mpr hplaced⟩
      · rw [flattenAll_append]
        exact List.rel_append hf.groups (List.Forall₂.cons hsame List.Forall₂.nil)
  · rename_i hgroup
    have hgroup' : e.line.head? ≠ some '!' := by
      rw [hmark]
      exact fun h => hgroup (Option.some_inj.mp h)
    rw [inlineEntry, if_neg hcolon, if_neg hgroup']
    split at h
    · rename_i hconstant
      rw [bind_ok] at h
      obtain ⟨constants, hparse, h⟩ := h
      obtain rfl := pure_ok.mp h
      refine ⟨{ q with constants }, ?_, { hf with constants := rfl }⟩
      rw [parseRegisterDefEntry, bind_ok]
      refine ⟨mark, first_ok.mpr hmark, ?_⟩
      rw [if_neg hne, if_neg hgroup, if_pos hconstant, bind_ok]
      exact ⟨constants, by rw [hf.constants, hparse], rfl⟩
    · exact (failParse_ok.mp h).elim

end step

/-- From entry to entry, the parser on the text with definitions in place follows. -/
theorem Follows.run {text : List Parse} {p p' q : Parsing} {texts : Dict Parse}
    (hf : Follows p texts q)
    (h : text.foldlM parseRegisterDefEntry p = .ok p') :
    ∃ texts' q', (inlineDefs texts text).foldlM parseRegisterDefEntry q = .ok q' ∧
      Follows p' texts' q' := by
  induction text generalizing p q texts with
  | nil =>
      cases h
      exact ⟨texts, q, rfl, hf⟩
  | cons parse rest ih =>
      obtain ⟨e, body⟩ := parse
      rw [List.foldlM_cons, bind_ok] at h
      obtain ⟨p₁, hentry, hrest⟩ := h
      rw [inlineDefs]
      by_cases hcolon : e.line.head? = some ':'
      · rw [if_pos hcolon]
        exact ih (hf.define hcolon hentry) hrest
      · rw [if_neg hcolon]
        obtain ⟨q₁, hentry', hf₁⟩ := hf.entry hcolon hentry
        obtain ⟨texts', q', hrun, hf'⟩ := ih hf₁ hrest
        refine ⟨texts', q', ?_, hf'⟩
        rw [List.foldlM_cons, bind_ok]
        exact ⟨q₁, hentry', hrun⟩

theorem Follows.init : Follows {} [] {} where
  defined := List.Forall₂.nil
  placed := List.forall_mem_nil _
  defines := rfl
  groups := List.Forall₂.nil
  constants := rfl

end Mbf.RegisterDefs
