import Mathlib.Data.List.Forall2
import Mbf.Parse.Flatten

/-! # Definitions in place of their uses

`inlineDefs` writes the text of each definition in place of each use of it: a group with the name of
the use and the entries of the definition, or a register with the name of the use, the access and
the fields of the definition.  The parser, which then meets no definition any more, makes of this
text what the flattener makes of the original (`parseDefs_inline`), up to `SameAs`: the fields that
a use of a register adds follow those of the definition in both, but here the parser counts them
from where those of the definition end, and there from bit 0. -/

namespace Mbf.RegisterDefs

open Nesting Indent

/-! ### The text -/

/-- The name that an entry defines. -/
def definedName (e : Entry) : Name := ((words e.line).headD []).dropWhile (· = '!')

/-- A use of a definition, with the text of the definition in its place. -/
def inlineUse (texts : Dict Parse) (e : Entry) (body : List Parse) : Parse :=
  let line := words e.line.tail
  let name := line.getD 1 (line.headD [])
  match lookup texts (line.headD []) with
  | none => .node e body
  | some (.node define content) =>
      if define.line.head? = some '!' then .node { e with line := '!' :: name } content
      else .node { e with line := name ++ ' ' :: (words define.line).getD 1 [] } (content ++ body)

mutual

/-- An entry of a group, with definitions in place of their uses. -/
def inlineEntry (texts : Dict Parse) : Parse → Parse
  | .node e body =>
      if e.line.head? = some ':' then inlineUse texts e body
      else if e.line.head? = some '!' then .node e (inlineAll texts body)
      else .node e body

def inlineAll (texts : Dict Parse) : List Parse → List Parse
  | [] => []
  | parse :: rest => inlineEntry texts parse :: inlineAll texts rest

end

/-- A file, with definitions in place of their uses. -/
def inlineDefs (texts : Dict Parse) : List Parse → List Parse
  | [] => []
  | .node e body :: rest =>
      if e.line.head? = some ':' then
        let e := { e with line := e.line.tail }
        inlineDefs (texts.set (definedName e) (.node e body)) rest
      else inlineEntry texts (.node e body) :: inlineDefs texts rest

/-! ### What definitions leave behind -/

/-- A register without its definition. -/
def Register.plain (register : Register) : Register := { register with definition := none }

mutual

/-- An item without definitions. -/
def Item.plain : Item → Item
  | .group name base length hidden content doc =>
      .group name base length hidden (plainAll content) doc
  | .groupUse name base length _ content doc => .group name base length false (plainAll content) doc
  | .register register => .register register.plain
  | .registerArray name base length rw doc => .registerArray name base length rw doc
  | .rwPair registers => .rwPair (registers.map Register.plain)
  | .overlay name offset rw registers doc =>
      .overlay name offset rw (registers.map Register.plain) doc
  | .union name base length content doc => .union name base length (plainAll content) doc

def plainAll : List Item → List Item
  | [] => []
  | item :: content => item.plain :: plainAll content

end

/-- A field, moved by some bits. -/
def Field.shift (bits : ℤ) (field : Field) : Field := { field with offset := field.offset + bits }

/-- The fields `own` that a use adds to those of its definition, as they are in the text with the
definition in place: counted from the end of the definition's fields, up to the first that states
its bit. -/
structure Added (fields own own' : List Field) : Prop where
  lines : ∃ body added, parseFieldDefs body = .ok fields ∧ parseFieldDefs added = .ok own ∧
    parseFieldDefs (body ++ added) = .ok (fields ++ own')
  shifted : ∃ (bits : ℤ) (n : ℕ), own' = (own.take n).map (Field.shift bits) ++ own.drop n

/-- What the flattener and the parser of the text with definitions in place have in common. -/
inductive SameAs : Item → Item → Prop
  | plain (item : Item) : SameAs item item.plain
  | group {name base length hidden content content' doc} (h : List.Forall₂ SameAs content content') :
      SameAs (.group name base length hidden content doc)
        (.group name base length hidden content' doc)
  | registerUse {name offset doc own own'} {define : RegisterDef}
      (h : Added define.fields own own') :
      SameAs (.register ⟨⟨name, define.rw, define.fields ++ own, doc⟩, offset, some define⟩)
        (.register ⟨⟨name, define.rw, define.fields ++ own', doc⟩, offset, none⟩)

/-! ### Definitions and their texts -/

/-- A definition is what is parsed of a text. -/
def Define.Of (parse : Parse) : Define → Prop
  | .group define =>
      parse.label.line.head? = some '!' ∧ ∃ n, parseGroupDef 0 parse [] = .ok (define, n)
  | .register define =>
      parse.label.line.head? ≠ some '!' ∧ parseRegDef parse none none = .ok define

/-- Each definition is what is parsed of the text under its name. -/
def Defined (defines : Dict Define) (texts : Dict Parse) : Prop :=
  List.Forall₂ (fun define text => define.1 = text.1 ∧ define.2.Of text.2) defines texts

theorem Defined.any_eq {defines : Dict Define} {texts : Dict Parse} (h : Defined defines texts)
    (key : Name) : defines.any (·.1 = key) = texts.any (·.1 = key) := by
  induction h with
  | nil => rfl
  | cons hhead _ ih => rw [List.any_cons, List.any_cons, hhead.1, ih]

theorem Defined.set {defines : Dict Define} {texts : Dict Parse} (h : Defined defines texts)
    (key : Name) {define : Define} {text : Parse} (hdefine : define.Of text) :
    Defined (defines.set key define) (texts.set key text) := by
  rw [Dict.set, Dict.set, h.any_eq key]
  split
  · rw [Defined, List.forall₂_map_left_iff, List.forall₂_map_right_iff]
    refine h.imp fun a b hab => ?_
    rw [hab.1]
    split
    · exact ⟨rfl, hdefine⟩
    · exact hab
  · exact List.rel_append h (List.Forall₂.cons ⟨rfl, hdefine⟩ List.Forall₂.nil)

theorem Defined.lookup {defines : Dict Define} {texts : Dict Parse} (h : Defined defines texts)
    {key : Name} {define : Define} (hdefine : lookup defines key = some define) :
    ∃ text, RegisterDefs.lookup texts key = some text ∧ define.Of text := by
  induction h with
  | nil => cases hdefine
  | @cons a b defines texts hhead _ ih =>
      rw [RegisterDefs.lookup, List.find?_cons] at hdefine ⊢
      rw [← hhead.1]
      split at hdefine
      · cases hdefine
        exact ⟨b.2, rfl, hhead.2⟩
      · exact ih hdefine

/-! ### Lines -/

theorem isName_head {name : Name} (h : isName name = true) :
    ∃ c rest, name = c :: rest ∧ c.isAlpha = true := by
  cases name with
  | nil => cases h
  | cons c rest =>
      rw [isName, Bool.and_eq_true] at h
      exact ⟨c, rest, rfl, h.1⟩

/-- No space is part of a name. -/
theorem isName_isSpace {name : Name} (h : isName name = true) :
    ∀ c ∈ name, isSpace c = false := by
  have hspace : ∀ c : Char, (c.isAlphanum || c = '_') = true → isSpace c = false := by
    intro c hc
    rw [isSpace, decide_eq_false_iff_not]
    intro hmem
    revert hc
    simp only [List.mem_cons, List.not_mem_nil, or_false] at hmem
    obtain rfl | rfl | rfl | rfl | rfl | rfl := hmem <;> decide
  cases name with
  | nil => cases h
  | cons c rest =>
      rw [isName, Bool.and_eq_true, List.all_eq_true] at h
      rw [List.forall_mem_cons]
      refine ⟨hspace c ?_, fun d hd => hspace d (h.2 d hd)⟩
      rw [Char.isAlphanum, h.1]
      rfl

/-- A line of one word. -/
theorem words_single {word : List Char} (hne : word ≠ []) (h : ∀ c ∈ word, isSpace c = false) :
    words word = [word] := by
  rw [words, List.splitOnP_eq_singleton h, List.filter_cons_of_pos (by simpa using hne),
    List.filter_nil]

/-- A line of two words. -/
theorem words_pair {word word' : List Char} (hne : word ≠ []) (h : ∀ c ∈ word, isSpace c = false)
    (hne' : word' ≠ []) (h' : ∀ c ∈ word', isSpace c = false) :
    words (word ++ ' ' :: word') = [word, word'] := by
  rw [words, List.splitOnP_append_cons_of_forall_mem h ' ' (by decide),
    List.splitOnP_eq_singleton h', List.filter_cons_of_pos (by simpa using hne),
    List.filter_cons_of_pos (by simpa using hne'), List.filter_nil]

theorem checkName_ok {name : Name} {lineNo : ℕ} {u : Unit} :
    checkName name lineNo = .ok u ↔ isName name = true := by
  rw [checkName]
  split
  · rename_i h
    exact ⟨fun _ => h, fun _ => rfl⟩
  · rename_i h
    exact ⟨fun hfail => (failParse_ok.mp hfail).elim, fun hname => absurd hname h⟩

/-- The line of a group that is not hidden. -/
theorem groupHeader_name {e : Entry} {name : Name} (h : isName name = true) :
    groupHeader { e with line := '!' :: name } = .ok (name, false) := by
  obtain ⟨c, rest, rfl, hc⟩ := isName_head h
  have hwords : words ('!' :: c :: rest) = ['!' :: c :: rest] := by
    refine words_single (List.cons_ne_nil _ _) ?_
    rw [List.forall_mem_cons]
    exact ⟨by decide, isName_isSpace h⟩
  have hmark : c ≠ '!' := by
    rintro rfl
    exact absurd hc (by decide)
  simp only [groupHeader, hwords, first, List.tail_cons, bind, Except.bind, decide_eq_false hmark,
    Bool.false_eq_true, if_false, checkName, h, if_true, checkArgs, List.length_singleton]
  rfl

theorem kind_group {e : Entry} (h : e.line.head? = some '!') : kind e = .ok .groupDef := by
  rw [kind, bind_ok]
  exact ⟨'!', first_ok.mpr h, rfl⟩

/-! ### Registers -/

theorem checkRw_ok {word : List Char} {lineNo : ℕ} {access : Access} :
    checkRw word lineNo = .ok access ↔ word = access.text := by
  constructor
  · intro h
    rw [checkRw] at h
    split at h
    · rename_i hfind
      cases h
      have haccess := List.find?_some hfind
      exact (of_decide_eq_true haccess).symm
    · exact (failParse_ok.mp h).elim
  · rintro rfl
    cases access <;> rfl

theorem checkArgs_ok {args : List (List Char)} {minLength maxLength lineNo : ℕ} {u : Unit} :
    checkArgs args minLength maxLength lineNo = .ok u ↔
      minLength ≤ args.length ∧ args.length ≤ maxLength := by
  rw [checkArgs]
  split
  · rename_i hless
    rw [failParse_ok, false_iff]
    exact fun h => absurd h.1 (Nat.not_le.mpr hless)
  · rename_i hmin
    split
    · rename_i hmore
      rw [failParse_ok, false_iff]
      exact fun h => absurd h.2 (Nat.not_le.mpr hmore)
    · rename_i hmax
      exact ⟨fun _ => ⟨Nat.not_lt.mp hmin, Nat.not_lt.mp hmax⟩, fun _ => rfl⟩

/-- A register that has its access is written as its name and its access. -/
theorem parseRegDef_eq_ok {parse : Parse} {define : RegisterDef} :
    parseRegDef parse none none = .ok define ↔
      words parse.label.line = [define.name, define.rw.text] ∧ isName define.name = true ∧
        parseFieldDefs parse.children = .ok define.fields ∧ parse.label.doc = define.doc := by
  simp only [parseRegDef, bind_ok, checkArgs_ok, first_ok, checkName_ok]
  constructor
  · rintro ⟨-, ⟨hmin, hmax⟩, name, hname, -, hisName, h⟩
    cases hwords : words parse.label.line with
    | nil =>
        rw [hwords] at hmin
        exact absurd hmin (by decide)
    | cons word rest =>
        rw [hwords] at hname hmax h
        cases hname
        cases rest with
        | nil =>
            rw [List.getElem?_cons_succ, List.getElem?_nil] at h
            obtain ⟨access, haccess, -⟩ := bind_ok.mp h
            exact (failParse_ok.mp haccess).elim
        | cons word' rest =>
            obtain rfl : rest = [] := by
              rw [List.length_cons, List.length_cons] at hmax
              exact List.eq_nil_of_length_eq_zero (by omega)
            simp only [List.getElem?_cons_succ, List.getElem?_cons_zero, bind_ok, pure_ok] at h
            obtain ⟨access, haccess, fields, hfields, rfl⟩ := h
            rw [checkRw_ok.mp haccess]
            exact ⟨rfl, hisName, hfields, rfl⟩
  · rintro ⟨hwords, hname, hfields, hdoc⟩
    rw [hwords]
    refine ⟨(), ⟨Nat.le_add_left _ _, le_refl _⟩, define.name, rfl, (), hname, ?_⟩
    simp only [List.getElem?_cons_succ, List.getElem?_cons_zero, bind_ok, pure_ok]
    refine ⟨define.rw, checkRw_ok.mpr rfl, define.fields, hfields, ?_⟩
    rw [hdoc]

/-! ### Fields -/

theorem parseAt_shift {offset place : ℤ} {args rest : List (List Char)} {lineNo : ℕ}
    (h : parseAt offset args lineNo = .ok (place, rest)) (bits : ℤ) :
    parseAt (offset + bits) args lineNo = .ok (place + bits, rest) ∨
      parseAt (offset + bits) args lineNo = .ok (place, rest) := by
  unfold parseAt at h ⊢
  split at h
  · exact .inr h
  · cases h
    exact .inl rfl

/-- What is accepted as a field does not depend on where the field before it ends: it is moved with
it, or it states its bit. -/
theorem parseFieldDef_shift {offset : ℤ} {parse : Parse} {field : Field} {next : ℤ}
    (h : parseFieldDef offset parse = .ok (field, next)) (bits : ℤ) :
    parseFieldDef (offset + bits) parse = .ok (field.shift bits, next + bits) ∨
      parseFieldDef (offset + bits) parse = .ok (field, next) := by
  simp only [parseFieldDef, bind_ok] at h ⊢
  obtain ⟨name, hname, u, hbody, h⟩ := h
  split at h
  · obtain ⟨v, hfail, -⟩ := bind_ok.mp h
    exact (failParse_ok.mp hfail).elim
  · rename_i hdot
    simp only [bind_ok, pure_ok] at h
    obtain ⟨width, hwidth, ⟨place, args⟩, hat, u', hargs, access, haccess, h⟩ := h
    obtain ⟨rfl, rfl⟩ := Prod.mk_inj.mp h
    refine (parseAt_shift hat bits).imp ?_ ?_
    all_goals
      intro hat'
      refine ⟨name, hname, u, hbody, ?_⟩
      rw [if_neg hdot]
      simp only [bind_ok, pure_ok]
      refine ⟨width, hwidth, _, hat', u', hargs, access, haccess, ?_⟩
    · rw [Field.shift, add_right_comm]
    · rfl

/-- Fields are moved with the field before them, up to the first that states its bit. -/
theorem parseFields_shift {offset : ℤ} {body : List Parse} {fields : List Field}
    (h : parseFields offset body = .ok fields) (bits : ℤ) :
    ∃ n, parseFields (offset + bits) body =
      .ok ((fields.take n).map (Field.shift bits) ++ fields.drop n) := by
  induction body generalizing offset fields with
  | nil =>
      cases h
      exact ⟨0, rfl⟩
  | cons parse rest ih =>
      simp only [parseFields, bind_ok] at h ⊢
      obtain ⟨skip, hskip, h⟩ := h
      cases skip with
      | true =>
          simp only [if_true, bind_ok] at h
          obtain ⟨count, hcount, h⟩ := h
          obtain ⟨n, hfields⟩ := ih h
          refine ⟨n, true, hskip, ?_⟩
          simp only [if_true, bind_ok]
          refine ⟨count, hcount, ?_⟩
          rwa [add_right_comm]
      | false =>
          simp only [Bool.false_eq_true, if_false, bind_ok, pure_ok] at h
          obtain ⟨⟨field, next⟩, hfield, fields, hfields, rfl⟩ := h
          cases parseFieldDef_shift hfield bits with
          | inl hmoved =>
              obtain ⟨n, hrest⟩ := ih hfields
              refine ⟨n + 1, false, hskip, ?_⟩
              simp only [Bool.false_eq_true, if_false, bind_ok, pure_ok]
              exact ⟨_, hmoved, _, hrest, rfl⟩
          | inr hstated =>
              refine ⟨0, false, hskip, ?_⟩
              simp only [Bool.false_eq_true, if_false, bind_ok, pure_ok]
              exact ⟨_, hstated, fields, hfields, rfl⟩

/-- The fields of a definition are the first fields of its text with more after it, and the others
are counted from where they end. -/
theorem parseFields_append {offset offset' : ℤ} {body more : List Parse}
    {fields others : List Field} (h : parseFields offset body = .ok fields)
    (hmore : parseFields offset' more = .ok others) :
    ∃ bits n, parseFields offset (body ++ more) =
      .ok (fields ++ ((others.take n).map (Field.shift bits) ++ others.drop n)) := by
  induction body generalizing offset fields with
  | nil =>
      cases h
      obtain ⟨n, hothers⟩ := parseFields_shift hmore (offset - offset')
      rw [add_sub_cancel] at hothers
      exact ⟨_, n, hothers⟩
  | cons parse rest ih =>
      rw [List.cons_append]
      simp only [parseFields, bind_ok] at h ⊢
      obtain ⟨skip, hskip, h⟩ := h
      cases skip with
      | true =>
          simp only [if_true, bind_ok] at h
          obtain ⟨count, hcount, h⟩ := h
          obtain ⟨bits, n, hothers⟩ := ih h
          refine ⟨bits, n, true, hskip, ?_⟩
          simp only [if_true, bind_ok]
          exact ⟨count, hcount, hothers⟩
      | false =>
          simp only [Bool.false_eq_true, if_false, bind_ok, pure_ok] at h
          obtain ⟨field, hfield, fields, hfields, rfl⟩ := h
          obtain ⟨bits, n, hothers⟩ := ih hfields
          refine ⟨bits, n, false, hskip, ?_⟩
          simp only [Bool.false_eq_true, if_false, bind_ok, pure_ok]
          exact ⟨field, hfield, _, hothers, rfl⟩

/-- The text of a definition with the fields of a use after it. -/
theorem exists_added {body added : List Parse} {fields own : List Field}
    (h : parseFieldDefs body = .ok fields) (hown : parseFieldDefs added = .ok own) :
    ∃ own', parseFieldDefs (body ++ added) = .ok (fields ++ own') ∧ Added fields own own' := by
  obtain ⟨bits, n, hboth⟩ := parseFields_append h hown
  exact ⟨_, hboth, ⟨body, added, h, hown, hboth⟩, bits, n, rfl⟩

/-! ### Items without definitions -/

theorem parseOverlay_plain {rw : Access} {offset : ℤ} {body : List Parse}
    {registers : List Register} (h : parseOverlay rw offset body = .ok registers) :
    registers.map Register.plain = registers := by
  induction body generalizing offset registers with
  | nil =>
      cases h
      rfl
  | cons parse rest ih =>
      simp only [parseOverlay, bind_ok, pure_ok] at h
      obtain ⟨register, -, registers, hrest, rfl⟩ := h
      rw [List.map_cons, ih hrest]
      rfl

theorem parseRegPair_plain {offset n : ℤ} {parse : Parse} {item : Item}
    (h : parseRegPair offset parse = .ok (item, n)) : item.plain = item := by
  simp only [parseRegPair, bind_ok] at h
  obtain ⟨-, -, h⟩ := h
  split at h
  · simp only [bind_ok, pure_ok] at h
    obtain ⟨a, -, b, -, h⟩ := h
    obtain ⟨rfl, -⟩ := Prod.mk_inj.mp h
    rfl
  · exact (failParse_ok.mp h).elim

mutual

/-- Without definitions the parser makes no use of one. -/
theorem parseGroupEntry_plain {offset n : ℤ} : (parse : Parse) → {item : Item} →
    parseGroupEntry offset [] parse = .ok (item, n) → item.plain = item
  | .node e body, item, h => by
      rw [parseGroupEntry, bind_ok] at h
      obtain ⟨kind, -, h⟩ := h
      cases kind with
      | sharedName =>
          simp only [parseSharedName, bind_ok] at h
          obtain ⟨key, -, -, -, h⟩ := h
          exact (failParse_ok.mp h).elim
      | regPair => exact parseRegPair_plain h
      | regOverlay =>
          simp only [parseRegOverlay, bind_ok, pure_ok] at h
          obtain ⟨-, -, -, -, access, -, registers, hregisters, h⟩ := h
          obtain ⟨rfl, -⟩ := Prod.mk_inj.mp h
          rw [Item.plain, parseOverlay_plain hregisters]
      | regUnion =>
          simp only [bind_ok, pure_ok] at h
          obtain ⟨name, -, ⟨content, size⟩, hcontent, h⟩ := h
          obtain ⟨rfl, -⟩ := Prod.mk_inj.mp h
          rw [Item.plain, parseUnion_plain body hcontent]
      | groupDef =>
          simp only [bind_ok, pure_ok] at h
          obtain ⟨header, -, ⟨content, count⟩, hcontent, h⟩ := h
          obtain ⟨rfl, -⟩ := Prod.mk_inj.mp h
          rw [Item.plain, parseContent_plain body hcontent]
      | regArray =>
          simp only [parseRegArray, bind_ok, pure_ok] at h
          obtain ⟨-, -, -, -, count, -, access, -, -, -, h⟩ := h
          obtain ⟨rfl, -⟩ := Prod.mk_inj.mp h
          rfl
      | regDef =>
          simp only [bind_ok, pure_ok] at h
          obtain ⟨register, -, h⟩ := h
          obtain ⟨rfl, -⟩ := Prod.mk_inj.mp h
          rfl

theorem parseContent_plain {offset n : ℤ} : (body : List Parse) → {content : List Item} →
    parseContent offset [] body = .ok (content, n) → plainAll content = content
  | [], content, h => by
      cases h
      rfl
  | parse :: rest, content, h => by
      simp only [parseContent, bind_ok, pure_ok] at h
      obtain ⟨⟨item, count⟩, hitem, ⟨content, total⟩, hcontent, h⟩ := h
      obtain ⟨rfl, -⟩ := Prod.mk_inj.mp h
      rw [plainAll, parseGroupEntry_plain parse hitem, parseContent_plain rest hcontent]

theorem parseUnion_plain {offset n : ℤ} : (body : List Parse) → {content : List Item} →
    parseUnion offset body = .ok (content, n) → plainAll content = content
  | [], content, h => by
      cases h
      rfl
  | parse :: rest, content, h => by
      simp only [parseUnion, bind_ok, pure_ok] at h
      obtain ⟨⟨item, count⟩, hitem, ⟨content, size⟩, hcontent, h⟩ := h
      obtain ⟨rfl, -⟩ := Prod.mk_inj.mp h
      rw [plainAll, parseGroupEntry_plain parse hitem, parseUnion_plain rest hcontent]

end

/-! ### Uses -/

theorem parseGroupDef_ok {offset n : ℤ} {parse : Parse} {defines : Dict Define} {item : Item}
    (h : parseGroupDef offset parse defines = .ok (item, n)) :
    ∃ name hidden content, groupHeader parse.label = .ok (name, hidden) ∧
      parseContent offset defines parse.children = .ok (content, n) ∧
      item = .group name offset n hidden content parse.label.doc := by
  simp only [parseGroupDef, bind_ok, pure_ok] at h
  obtain ⟨⟨name, hidden⟩, hheader, ⟨content, count⟩, hcontent, h⟩ := h
  obtain ⟨rfl, rfl⟩ := Prod.mk_inj.mp h
  exact ⟨name, hidden, content, hheader, hcontent, rfl⟩

/-- A use of a group, with the entries of the definition in place. -/
theorem groupUse_inline {offset n : ℤ} {e : Entry} {name : Name} {text : Parse} {define : Item}
    (hname : isName name = true) (hdefine : parseGroupDef 0 text [] = .ok (define, n)) :
    ∃ item', parseGroupEntry offset [] (.node { e with line := '!' :: name } text.children) =
        .ok (item', n) ∧
      SameAs ((Item.groupUse name offset n define [] e.doc).flatten 0) item' := by
  obtain ⟨name', hidden, content, -, hcontent, rfl⟩ := parseGroupDef_ok hdefine
  have hmoved := parseContent_flattenAll hcontent offset
  rw [zero_add] at hmoved
  refine ⟨.group name offset n false (flattenAll offset content) e.doc, ?_, ?_⟩
  · rw [parseGroupEntry, bind_ok]
    refine ⟨.groupDef, kind_group rfl, ?_⟩
    simp only [bind_ok, pure_ok]
    exact ⟨_, groupHeader_name hname, _, hmoved, rfl⟩
  · have hsame := SameAs.plain ((Item.groupUse name offset n (.group name' 0 n hidden content
      text.label.doc) [] e.doc).flatten 0)
    rw [Item.flatten, Item.plain, add_zero, zero_add, parseContent_plain _ hmoved] at hsame
    rwa [Item.flatten, add_zero, zero_add]

/-- The line of a register. -/
theorem words_register {name : Name} {access : Access} (h : isName name = true) :
    words (name ++ ' ' :: access.text) = [name, access.text] := by
  refine words_pair ?_ (isName_isSpace h) ?_ ?_
  · rintro rfl
    cases h
  · cases access <;> exact List.cons_ne_nil _ _
  · have hall : access.text.all (fun c => !isSpace c) = true := by cases access <;> rfl
    simpa only [List.all_eq_true, Bool.not_eq_true'] using hall

/-- The line of a register is neither of the lines that start with a mark, nor that of an array. -/
theorem kind_register {e : Entry} {name : Name} {access : Access} (h : isName name = true) :
    kind { e with line := name ++ ' ' :: access.text } = .ok .regDef := by
  have harray : isRegArray { e with line := name ++ ' ' :: access.text } = false := by
    rw [isRegArray, words_register h]
    cases access <;> rfl
  obtain ⟨c, rest, rfl, hc⟩ := isName_head h
  have hmark : ∀ d : Char, d.isAlpha = false → c ≠ d := by
    rintro d hd rfl
    rw [hc] at hd
    cases hd
  have hdot := hmark '.' (by decide)
  have hminus := hmark '-' (by decide)
  have hcolon := hmark ':' (by decide)
  have hstar := hmark '*' (by decide)
  have hgroup := hmark '!' (by decide)
  rw [kind, bind_ok]
  refine ⟨c, rfl, ?_⟩
  rw [if_neg (not_or_intro hdot hminus), if_neg hcolon, if_neg hstar, if_neg hgroup, harray]
  rfl

/-- A use of a register, with the fields of the definition in place. -/
theorem registerUse_inline {offset : ℤ} {e : Entry} {body : List Parse} {name : Name}
    {text : Parse} {define : RegisterDef} {own : List Field} (hname : isName name = true)
    (hdefine : parseRegDef text none none = .ok define) (hown : parseFieldDefs body = .ok own) :
    ∃ item', parseGroupEntry offset [] (.node
          { e with line := name ++ ' ' :: (words text.label.line).getD 1 [] }
          (text.children ++ body)) = .ok (item', 1) ∧
      SameAs ((Item.register ⟨⟨name, define.rw, own, e.doc⟩, offset, some define⟩).flatten 0)
        item' := by
  obtain ⟨hwords, -, hbody, -⟩ := parseRegDef_eq_ok.mp hdefine
  obtain ⟨own', hboth, hadded⟩ := exists_added hbody hown
  let register : RegisterDef := ⟨name, define.rw, define.fields ++ own', e.doc⟩
  have hregister : parseRegDef (.node
      { e with line := name ++ ' ' :: (words text.label.line).getD 1 [] }
      (text.children ++ body)) none none = .ok register := by
    rw [parseRegDef_eq_ok, hwords]
    exact ⟨words_register hname, hname, hboth, rfl⟩
  refine ⟨.register (register.at offset), ?_, SameAs.registerUse hadded⟩
  rw [parseGroupEntry, bind_ok]
  refine ⟨.regDef, ?_, ?_⟩
  · rw [hwords]
    exact kind_register hname
  · simp only [bind_ok, pure_ok]
    exact ⟨register, hregister, rfl⟩

theorem parseSharedName_inline {defines : Dict Define} {texts : Dict Parse}
    (hdefined : Defined defines texts) {offset n : ℤ} {e : Entry} {body : List Parse} {item : Item}
    (hcolon : e.line.head? = some ':')
    (h : parseSharedName offset (.node e body) defines = .ok (item, n)) :
    ∃ item', parseGroupEntry offset [] (inlineEntry texts (.node e body)) = .ok (item', n) ∧
      SameAs (item.flatten 0) item' := by
  simp only [parseSharedName, bind_ok, first_ok, checkName_ok] at h
  obtain ⟨key, hkey, -, hname, h⟩ := h
  rw [inlineEntry, if_pos hcolon, inlineUse, List.headD_eq_head?_getD]
  change (words e.line.tail).head? = some key at hkey
  rw [hkey, Option.getD_some]
  change isName ((words e.line.tail).getD 1 key) = true at hname
  cases hdefine : lookup defines key with
  | none =>
      rw [hdefine] at h
      exact (failParse_ok.mp h).elim
  | some define =>
      obtain ⟨text, htext, hof⟩ := hdefined.lookup hdefine
      rw [hdefine] at h
      rw [htext]
      obtain ⟨d, content⟩ := text
      cases define with
      | group define =>
          obtain ⟨hgroup, count, hparse⟩ := hof
          obtain ⟨name, hidden, entries, -, -, hshape⟩ := parseGroupDef_ok hparse
          subst hshape
          simp only [bind_ok, pure_ok] at h
          obtain ⟨-, -, h⟩ := h
          obtain ⟨rfl, rfl⟩ := Prod.mk_inj.mp h
          change d.line.head? = some '!' at hgroup
          dsimp only
          rw [if_pos hgroup]
          exact groupUse_inline hname hparse
      | register define =>
          obtain ⟨hgroup, hparse⟩ := hof
          simp only [bind_ok, pure_ok] at h
          obtain ⟨own, hown, h⟩ := h
          obtain ⟨rfl, rfl⟩ := Prod.mk_inj.mp h
          change d.line.head? ≠ some '!' at hgroup
          dsimp only
          rw [if_neg hgroup]
          exact registerUse_inline hname hparse hown

/-- An entry that is neither a use nor a group does not look at the definitions. -/
theorem parseGroupEntry_inline_other {defines : Dict Define} {texts : Dict Parse} {offset n : ℤ}
    {e : Entry} {body : List Parse} {item : Item} (hcolon : e.line.head? ≠ some ':')
    (hgroup : e.line.head? ≠ some '!')
    (hsame : parseGroupEntry offset [] (.node e body) =
      parseGroupEntry offset defines (.node e body))
    (h : parseGroupEntry offset defines (.node e body) = .ok (item, n)) :
    ∃ item', parseGroupEntry offset [] (inlineEntry texts (.node e body)) = .ok (item', n) ∧
      SameAs (item.flatten 0) item' := by
  rw [inlineEntry, if_neg hcolon, if_neg hgroup]
  rw [← hsame] at h
  have hplain := SameAs.plain item
  rw [parseGroupEntry_plain _ h] at hplain
  rw [parseGroupEntry_flatten h]
  exact ⟨item, h, hplain⟩

section inline
variable {defines : Dict Define} {texts : Dict Parse}

mutual

/-- The parser makes of the text with definitions in place what the flattener makes of an entry. -/
theorem parseGroupEntry_inline (hdefined : Defined defines texts) {offset n : ℤ} :
    (parse : Parse) → {item : Item} → parseGroupEntry offset defines parse = .ok (item, n) →
      ∃ item', parseGroupEntry offset [] (inlineEntry texts parse) = .ok (item', n) ∧
        SameAs (item.flatten 0) item'
  | .node e body, item, h => by
      have hentry := h
      rw [parseGroupEntry, bind_ok] at h
      obtain ⟨k, hk, h⟩ := h
      have hmarks := kind_ok hk
      cases k with
      | sharedName => exact parseSharedName_inline hdefined hmarks h
      | groupDef =>
          change e.line.head? = some '!' at hmarks
          have hcolon : e.line.head? ≠ some ':' := by
            rw [hmarks]
            decide
          simp only [bind_ok, pure_ok] at h
          obtain ⟨header, hheader, ⟨content, count⟩, hcontent, h⟩ := h
          obtain ⟨rfl, rfl⟩ := Prod.mk_inj.mp h
          obtain ⟨content', hcontent', hsame⟩ := parseContent_inline hdefined body hcontent
          refine ⟨.group header.1 offset count header.2 content' e.doc, ?_, ?_⟩
          · rw [inlineEntry, if_neg hcolon, if_pos hmarks, parseGroupEntry, bind_ok]
            refine ⟨.groupDef, hk, ?_⟩
            simp only [bind_ok, pure_ok]
            exact ⟨header, hheader, _, hcontent', rfl⟩
          · rw [Item.flatten, add_zero]
            exact SameAs.group hsame
      | regPair | regOverlay | regUnion | regDef =>
          refine parseGroupEntry_inline_other hmarks.1 hmarks.2 ?_ hentry
          rw [parseGroupEntry, parseGroupEntry, hk]
          rfl
      | regArray =>
          refine parseGroupEntry_inline_other hmarks.1 hmarks.2.1 ?_ hentry
          rw [parseGroupEntry, parseGroupEntry, hk]
          rfl

theorem parseContent_inline (hdefined : Defined defines texts) {offset n : ℤ} :
    (body : List Parse) → {content : List Item} →
    parseContent offset defines body = .ok (content, n) →
      ∃ content', parseContent offset [] (inlineAll texts body) = .ok (content', n) ∧
        List.Forall₂ SameAs (flattenAll 0 content) content'
  | [], content, h => by
      cases h
      exact ⟨[], rfl, List.Forall₂.nil⟩
  | parse :: rest, content, h => by
      simp only [parseContent, bind_ok, pure_ok] at h
      obtain ⟨⟨item, count⟩, hitem, ⟨content, total⟩, hcontent, h⟩ := h
      obtain ⟨rfl, rfl⟩ := Prod.mk_inj.mp h
      obtain ⟨item', hitem', hsame⟩ := parseGroupEntry_inline hdefined parse hitem
      obtain ⟨content', hcontent', hsame'⟩ := parseContent_inline hdefined rest hcontent
      refine ⟨item' :: content', ?_, List.Forall₂.cons hsame hsame'⟩
      simp only [inlineAll, parseContent, bind_ok, pure_ok]
      exact ⟨_, hitem', _, hcontent', rfl⟩

end

end inline

end Mbf.RegisterDefs
