import Mbf.Parse.Indent

/-! # What the indentation parser builds

The lines that are still to come are a list of tokens with their numbers (`pending`).  Each program
of the parser takes tokens off this list, and gives out the entries that they describe
(`describe`), or stops with an error of the text (`Ends`).  The forest is laid out by indentation
(`parseLine_ends`), so the parent of a line is the nearest line before it that is indented less
(`parseFile_forest`). -/

namespace Mbf.Indent

open Nesting

/-! ### Tokens -/

/-- A token and the number of its line. -/
structure Numbered where
  lineNo : ℕ
  token : Token
deriving DecidableEq

/-- The tokens of the lines after line `lineNo`. -/
def tokens : ℕ → List (List Char) → List Numbered
  | _, [] => []
  | lineNo, line :: rest =>
      match classify line with
      | none => tokens (lineNo + 1) rest
      | some token => ⟨lineNo + 1, token⟩ :: tokens (lineNo + 1) rest

/-- The entries that tokens stand for, after some comments. -/
def describe : List (List Char) → List Numbered → List Entry
  | _, [] => []
  | comments, t :: ts =>
      match t.token.kind with
      | .eof => describe comments ts
      | .blank => describe [] ts
      | .comment => describe (comments ++ [t.token.text]) ts
      | .line => ⟨t.token.text, comments, t.lineNo⟩ :: describe [] ts

section describe
variable {comments : List (List Char)} {n : ℕ} {t : Token} {ts : List Numbered}

theorem describe_blank (h : t.kind = .blank) :
    describe comments (⟨n, t⟩ :: ts) = describe [] ts := by
  rw [describe, h]

theorem describe_comment (h : t.kind = .comment) :
    describe comments (⟨n, t⟩ :: ts) = describe (comments ++ [t.text]) ts := by
  rw [describe, h]

theorem describe_line (h : t.kind = .line) :
    describe comments (⟨n, t⟩ :: ts) = ⟨t.text, comments, n⟩ :: describe [] ts := by
  rw [describe, h]

end describe

/-- The indentation of a line of the file. -/
def indentAt (input : List (List Char)) (lineNo : ℕ) : ℕ :=
  ((input.getD (lineNo - 1) []).takeWhile (· = ' ')).length

/-- What the reader gives out before the end of the file. -/
structure Good (indentOf : ℕ → ℕ) (t : Numbered) : Prop where
  inside : t.token.kind ≠ .eof
  text : t.token.kind = .comment → t.token.text.head? ≠ some '#'
  indent : t.token.kind = .line → indentOf t.lineNo = t.token.indent

/-! ### The reader -/

/-- The tokens still to come. -/
def pending (s : ReadLines) : List Numbered :=
  if s.undo = true ∧ s.result.kind ≠ .eof then ⟨s.lineNo, s.result⟩ :: tokens s.lineNo s.input
  else tokens s.lineNo s.input

/-- The reader is good for the indentation `indentOf`. -/
structure Valid (indentOf : ℕ → ℕ) (s : ReadLines) : Prop where
  newline : ∀ line ∈ s.input, line.getLast? = some '\n'
  good : ∀ t ∈ pending s, Good indentOf t
  atEnd : s.undo = true → s.result.kind = .eof → s.input = [] ∧ s.result.indent = 0

/-- The errors of a text. -/
inductive IsIndentation : Exit → Prop
  | comment (lineNo : ℕ) : IsIndentation (.fail "Bad comment indentation" lineNo)
  | line (lineNo : ℕ) : IsIndentation (.fail "Invalid identation" lineNo)
  | level (lineNo : ℕ) : IsIndentation (.fail "Invalid indentation" lineNo)

/-- The program ends with an error of the text, or as `P` says. -/
def Ends {α : Type} (x : Reads α) (s : ReadLines) (P : α → ReadLines → Prop) : Prop :=
  match x s with
  | .ok (a, s') => P a s'
  | .error e => IsIndentation e

section rules
variable {α β : Type} {x : Reads α} {f : α → Reads β} {s : ReadLines} {P Q : α → ReadLines → Prop}
  {R : β → ReadLines → Prop}

theorem Ends.mono (h : Ends x s P) (hPQ : ∀ a s', P a s' → Q a s') : Ends x s Q := by
  unfold Ends at h ⊢
  split at h
  · exact hPQ _ _ h
  · exact h

theorem Ends.pure {a : α} (h : P a s) : Ends (pure a : Reads α) s P := h

theorem Ends.bind (h : Ends x s P) (hf : ∀ a s', P a s' → Ends (f a) s' R) :
    Ends (x >>= f) s R := by
  unfold Ends at h
  cases hx : x s with
  | error e =>
      rw [hx] at h
      have hbind : (x >>= f) s = .error e := by
        show (x s >>= fun p => f p.1 p.2) = _
        rw [hx]
        rfl
      unfold Ends
      rw [hbind]
      exact h
  | ok p =>
      obtain ⟨a, s'⟩ := p
      rw [hx] at h
      have hbind : (x >>= f) s = f a s' := by
        show (x s >>= fun p => f p.1 p.2) = _
        rw [hx]
        rfl
      have hrest := hf a s' h
      unfold Ends at hrest ⊢
      rw [hbind]
      exact hrest

theorem Ends.fail {message : String} (h : ∀ n, IsIndentation (.fail message n)) :
    Ends (fail message : Reads α) s P := h s.lineNo

end rules

/-! ### Classification -/

theorem classify_inside {line : List Char} {t : Token} (h : classify line = some t) :
    t.kind ≠ .eof := by
  unfold classify at h
  dsimp only at h
  split_ifs at h <;> cases h <;> nofun

/-- Comments that start with `##` are not given out. -/
theorem classify_text {line : List Char} {t : Token} (h : classify line = some t)
    (hcomment : t.kind = .comment) : t.text.head? ≠ some '#' := by
  unfold classify at h
  dsimp only at h
  split_ifs at h with hblank hdouble hsingle
  · cases h
    cases hcomment
  · cases h
    generalize line.dropWhile (· = ' ') = content at hdouble hsingle
    match content with
    | [] => nofun
    | [c] => nofun
    | [c, c'] => nofun
    | c :: c' :: c'' :: rest =>
        intro hhead
        simp only [List.take_succ_cons, List.take_zero, List.cons.injEq, and_true] at hdouble hsingle
        simp only [List.dropLast_cons_cons, List.tail_cons, List.head?_cons, Option.some.injEq]
          at hhead
        exact hdouble ⟨hsingle, hhead⟩
  · cases h
    cases hcomment

theorem classify_indent {line : List Char} {t : Token} (h : classify line = some t)
    (hline : t.kind = .line) : (line.takeWhile (· = ' ')).length = t.indent := by
  have hsplit := congrArg List.length (List.takeWhile_append_dropWhile (p := (· = ' ')) (l := line))
  rw [List.length_append] at hsplit
  unfold classify at h
  dsimp only at h
  split_ifs at h
  · cases h
    cases hline
  · cases h
    cases hline
  · cases h
    show _ = line.length - _
    omega

/-- A token comes from the line with its number. -/
theorem mem_tokens {n : ℕ} {input : List (List Char)} {t : Numbered} (h : t ∈ tokens n input) :
    ∃ k line, t.lineNo = n + k + 1 ∧ input[k]? = some line ∧ classify line = some t.token := by
  induction input generalizing n with
  | nil => cases h
  | cons line rest ih =>
      unfold tokens at h
      split at h
      · obtain ⟨k, l, hnumber, hl, htoken⟩ := ih h
        exact ⟨k + 1, l, by omega, hl, htoken⟩
      · next token htoken =>
          rcases List.mem_cons.mp h with rfl | h
          · exact ⟨0, line, rfl, rfl, htoken⟩
          · obtain ⟨k, l, hnumber, hl, htoken⟩ := ih h
            exact ⟨k + 1, l, by omega, hl, htoken⟩

theorem tokens_good (input : List (List Char)) :
    ∀ t ∈ tokens 0 input, Good (indentAt input) t := by
  intro t ht
  obtain ⟨k, line, hnumber, hline, htoken⟩ := mem_tokens ht
  refine ⟨classify_inside htoken, classify_text htoken, ?_⟩
  intro hkind
  rw [← classify_indent htoken hkind, hnumber]
  unfold indentAt
  rw [show 0 + k + 1 - 1 = k by omega, List.getD_eq_getElem?_getD, hline, Option.getD_some]

/-! ### Reading -/

theorem readToken_eq {n : ℕ} {input : List (List Char)}
    (h : ∀ line ∈ input, line.getLast? = some '\n') :
    (tokens n input = [] ∧ ∃ m, readToken input n = .ok (⟨.eof, 0, []⟩, [], m)) ∨
      ∃ token rest m, readToken input n = .ok (token, rest, m) ∧
        tokens n input = ⟨m, token⟩ :: tokens m rest ∧
        ∀ line ∈ rest, line.getLast? = some '\n' := by
  induction input generalizing n with
  | nil => exact .inl ⟨rfl, n + 1, rfl⟩
  | cons line rest ih =>
      have hlater : ∀ l ∈ rest, l.getLast? = some '\n' :=
        fun l hl => h l (List.mem_cons_of_mem line hl)
      have hnewline : ¬line.getLast? ≠ some '\n' := not_not.mpr (h line List.mem_cons_self)
      rw [readToken, if_neg hnewline, tokens]
      cases hclass : classify line with
      | none => exact ih hlater
      | some token => exact .inr ⟨token, rest, n + 1, rfl, rfl, hlater⟩

section reader
variable {indentOf : ℕ → ℕ} {s : ReadLines}

theorem pending_read (h : s.undo = false) : pending s = tokens s.lineNo s.input := by
  unfold pending
  rw [h, if_neg (fun hboth => Bool.false_ne_true hboth.1)]

theorem pending_end (h : s.result.kind = .eof) : pending s = tokens s.lineNo s.input :=
  if_neg fun hboth => hboth.2 h

theorem pending_undo (h : s.undo = true) (hkind : s.result.kind ≠ .eof) :
    pending s = ⟨s.lineNo, s.result⟩ :: tokens s.lineNo s.input := if_pos ⟨h, hkind⟩

/-- What is given out, whether it is kept or not: then the same is given out again. -/
structure Given (indentOf : ℕ → ℕ) (s : ReadLines) (t : Token) (s' : ReadLines) : Prop where
  taken : Valid indentOf { s' with undo := false }
  kept : Valid indentOf { s' with undo := true }
  again : pending { s' with undo := true } = pending s
  cases : (pending s = [] ∧ pending { s' with undo := false } = [] ∧ t.kind = .eof ∧ t.indent = 0) ∨
    (t.kind ≠ .eof ∧ pending s = ⟨s'.lineNo, t⟩ :: pending { s' with undo := false })

/-- At the end of the file. -/
theorem Given.eof (hinput : s.input = []) (hkind : s.result.kind = .eof)
    (hindent : s.result.indent = 0) {r : ReadLines} (hr : pending r = []) :
    Given indentOf r s.result s := by
  have hnone : ∀ u, pending { s with undo := u } = [] := by
    intro u
    have hleft : pending { s with undo := u } = tokens s.lineNo s.input :=
      pending_end (s := { s with undo := u }) hkind
    rw [hleft, hinput]
    rfl
  have hvalid : ∀ u, Valid indentOf { s with undo := u } := by
    intro u
    refine ⟨?_, ?_, fun _ _ => ⟨hinput, hindent⟩⟩
    · show ∀ line ∈ s.input, _
      rw [hinput]
      nofun
    · rw [hnone]
      nofun
  exact ⟨hvalid false, hvalid true, (hnone true).trans hr.symm, .inl ⟨hr, hnone false, hkind, hindent⟩⟩

/-- Before the end of the file. -/
theorem Given.inside (hkind : s.result.kind ≠ .eof)
    (hnewline : ∀ line ∈ s.input, line.getLast? = some '\n') {r : ReadLines}
    (hr : pending r = ⟨s.lineNo, s.result⟩ :: tokens s.lineNo s.input)
    (hgood : ∀ t ∈ pending r, Good indentOf t) : Given indentOf r s.result s := by
  have hkept : pending { s with undo := true } = pending r :=
    (pending_undo (s := { s with undo := true }) rfl hkind).trans hr.symm
  have htaken : pending { s with undo := false } = tokens s.lineNo s.input := pending_read rfl
  refine ⟨⟨hnewline, ?_, nofun⟩, ⟨hnewline, ?_, fun _ hend => absurd hend hkind⟩, hkept,
    .inr ⟨hkind, ?_⟩⟩
  · intro t ht
    rw [htaken] at ht
    apply hgood
    rw [hr]
    exact List.mem_cons_of_mem _ ht
  · rw [hkept]
    exact hgood
  · rw [htaken]
    exact hr

theorem fill_ends (h : Valid indentOf s) (u : Bool) :
    Ends (fill u) s fun t s' => s'.undo = u ∧ Given indentOf s t s' := by
  unfold Ends fill
  by_cases hundo : s.undo = true
  · rw [if_pos hundo]
    refine ⟨rfl, ?_⟩
    by_cases hkind : s.result.kind = .eof
    · obtain ⟨hinput, hindent⟩ := h.atEnd hundo hkind
      refine @Given.eof indentOf { s with undo := u } hinput hkind hindent s ?_
      rw [pending_end hkind, hinput]
      rfl
    · exact @Given.inside indentOf { s with undo := u } hkind h.newline s (pending_undo hundo hkind)
        h.good
  · rw [if_neg hundo]
    have hpending := pending_read (Bool.eq_false_iff.mpr hundo)
    rcases readToken_eq (n := s.lineNo) h.newline with
      ⟨hnone, m, hread⟩ | ⟨token, rest, m, hread, htokens, hnewline⟩
    · rw [hread]
      refine ⟨rfl, ?_⟩
      exact @Given.eof indentOf
        { s with input := [], lineNo := m, result := ⟨.eof, 0, []⟩, undo := u } rfl rfl rfl s
        (hpending.trans hnone)
    · rw [hread]
      refine ⟨rfl, ?_⟩
      have hmem : ⟨m, token⟩ ∈ pending s := by
        rw [hpending, htokens]
        exact List.mem_cons_self
      exact @Given.inside indentOf
        { s with input := rest, lineNo := m, result := token, undo := u } (h.good _ hmem).inside
        hnewline s (hpending.trans htokens) h.good

theorem readLine_ends (h : Valid indentOf s) :
    Ends readLine s fun t s' =>
      Valid indentOf s' ∧ Ends undo s' (fun _ r => Valid indentOf r ∧ pending r = pending s) ∧
        ((pending s = [] ∧ pending s' = [] ∧ t.kind = .eof) ∨
          (t.kind ≠ .eof ∧ pending s = ⟨s'.lineNo, t⟩ :: pending s')) := by
  refine (fill_ends h false).mono ?_
  rintro t ⟨input, undo, result, warn, lineNo, warnings⟩ ⟨hundo, hgiven⟩
  cases hundo
  refine ⟨hgiven.taken, ⟨hgiven.kept, hgiven.again⟩, ?_⟩
  rcases hgiven.cases with ⟨hnone, hleft, hkind, -⟩ | hmore
  · exact .inl ⟨hnone, hleft, hkind⟩
  · exact .inr hmore

theorem lookahead_ends (h : Valid indentOf s) :
    Ends lookahead s fun t s' =>
      Valid indentOf s' ∧ pending s' = pending s ∧
        ((pending s = [] ∧ t.indent = 0) ∨ ∃ n ts, pending s = ⟨n, t⟩ :: ts) := by
  refine (fill_ends h true).mono ?_
  rintro t ⟨input, undo, result, warn, lineNo, warnings⟩ ⟨hundo, hgiven⟩
  cases hundo
  refine ⟨hgiven.kept, hgiven.again, ?_⟩
  rcases hgiven.cases with ⟨hnone, -, -, hindent⟩ | ⟨-, hmore⟩
  · exact .inl ⟨hnone, hindent⟩
  · exact .inr ⟨_, _, hmore⟩

/-- Warnings change nothing. -/
theorem warnIf_ends (h : Valid indentOf s) (c : Prop) [Decidable c] (message : String) :
    Ends (warnIf c message) s fun _ s' => Valid indentOf s' ∧ pending s' = pending s := by
  unfold Ends warnIf warn
  by_cases hc : c
  · rw [if_pos hc]
    by_cases hwarn : s.warn = true
    · rw [if_pos hwarn]
      exact ⟨⟨h.newline, h.good, h.atEnd⟩, rfl⟩
    · rw [if_neg hwarn]
      exact ⟨h, rfl⟩
  · rw [if_neg hc]
    exact ⟨h, rfl⟩

end reader

/-! ### The parser -/

section parser
variable {indentOf : ℕ → ℕ} {s s' : ReadLines}

/-- The reader went on. -/
structure Goes (indentOf : ℕ → ℕ) (s s' : ReadLines) : Prop where
  valid : Valid indentOf s'
  rest : pending s' <:+ pending s

theorem Goes.trans {r : ReadLines} (h : Goes indentOf s s') (h' : Goes indentOf s' r) :
    Goes indentOf s r :=
  ⟨h'.valid, h'.rest.trans h.rest⟩

/-- The first of the tokens still to come. -/
def Next (s : ReadLines) (P : Token → Prop) : Prop := ∀ t ∈ (pending s).head?, P t.token

theorem Goes.after {t : Numbered} (h : Valid indentOf s') (hs : pending s = t :: pending s') :
    Goes indentOf s s' :=
  ⟨h, hs ▸ List.suffix_cons t (pending s')⟩

theorem Goes.same (h : Valid indentOf s') (hs : pending s' = pending s) : Goes indentOf s s' :=
  ⟨h, hs ▸ List.suffix_rfl⟩

theorem Goes.length_le (h : Goes indentOf s s') : (pending s').length ≤ (pending s).length :=
  h.rest.length_le

theorem parseComments_ends {fuel indent : ℕ} {comments : List (List Char)}
    (h : Valid indentOf s) (hfuel : (pending s).length < fuel) :
    Ends (parseComments fuel indent comments) s fun doc s' =>
      Goes indentOf s s' ∧ Next s' (fun t => t.kind = .line) ∧
        describe comments (pending s) = describe doc (pending s') := by
  induction fuel generalizing s comments with
  | zero => exact absurd hfuel (Nat.not_lt_zero _)
  | succ fuel ih =>
      refine (readLine_ends h).bind ?_
      rintro t s' ⟨hvalid, hundo, hcases⟩
      rcases hcases with ⟨hnone, -, hkind⟩ | ⟨hinside, hmore⟩
      · rw [hkind]
        refine hundo.bind ?_
        rintro - r ⟨hr, hagain⟩
        refine Ends.pure ⟨.same hr hagain, ?_, by rw [hagain]⟩
        unfold Next
        rw [hagain, hnone]
        nofun
      · have hlength : (pending s').length < fuel := by
          rw [hmore, List.length_cons] at hfuel
          omega
        have hgood := h.good ⟨s'.lineNo, t⟩ (hmore ▸ List.mem_cons_self)
        cases hkind : t.kind with
        | eof => exact absurd hkind hinside
        | blank =>
            refine (warnIf_ends hvalid _ _).bind ?_
            rintro - r ⟨hr, hsame⟩
            refine (ih hr (hsame ▸ hlength)).mono ?_
            rintro doc q ⟨hgoes, hnext, hdescribe⟩
            refine ⟨(Goes.after hvalid hmore).trans ((Goes.same hr hsame).trans hgoes), hnext, ?_⟩
            rw [hmore, describe_blank hkind, ← hsame]
            exact hdescribe
        | comment =>
            by_cases hindent : indent = t.indent
            · have hnot := hgood.text hkind
              have hkeep : (if indent ≠ t.indent then fail "Bad comment indentation"
                  else if t.text.head? = some '#' then parseComments fuel indent comments
                  else parseComments fuel indent (comments ++ [t.text])) =
                  parseComments fuel indent (comments ++ [t.text]) := by
                rw [if_neg (not_not.mpr hindent), if_neg hnot]
              dsimp only
              rw [hkeep]
              refine (ih hvalid hlength).mono ?_
              rintro doc q ⟨hgoes, hnext, hdescribe⟩
              refine ⟨(Goes.after hvalid hmore).trans hgoes, hnext, ?_⟩
              rw [hmore, describe_comment hkind]
              exact hdescribe
            · dsimp only
              rw [if_pos hindent]
              exact Ends.fail IsIndentation.comment
        | line =>
            refine hundo.bind ?_
            rintro - r ⟨hr, hagain⟩
            refine Ends.pure ⟨.same hr hagain, ?_, by rw [hagain]⟩
            unfold Next
            rw [hagain, hmore]
            rintro u ⟨⟩
            exact hkind

def isBlank (t : Numbered) : Bool := t.token.kind = .blank

theorem describe_dropWhile (ts : List Numbered) :
    describe [] (ts.dropWhile isBlank) = describe [] ts := by
  induction ts with
  | nil => rfl
  | cons t ts ih =>
      cases hblank : isBlank t with
      | true =>
          rw [List.dropWhile_cons_of_pos hblank, ih]
          exact (describe_blank (of_decide_eq_true hblank)).symm
      | false => rw [List.dropWhile_cons_of_neg (Bool.eq_false_iff.mp hblank)]

theorem findNewIndent_ends {fuel : ℕ} (h : Valid indentOf s) (hfuel : (pending s).length < fuel) :
    Ends (findNewIndent fuel) s fun indent s' =>
      Valid indentOf s' ∧ pending s' = (pending s).dropWhile isBlank ∧
        ((pending s' = [] ∧ indent = 0) ∨
          ∃ n t ts, pending s' = ⟨n, t⟩ :: ts ∧ t.indent = indent) := by
  induction fuel generalizing s with
  | zero => exact absurd hfuel (Nat.not_lt_zero _)
  | succ fuel ih =>
      refine (readLine_ends h).bind ?_
      rintro t s' ⟨hvalid, hundo, hcases⟩
      rcases hcases with ⟨hnone, hleft, hkind⟩ | ⟨hinside, hmore⟩
      · rw [hkind]
        refine Ends.pure ⟨hvalid, ?_, .inl ⟨hleft, rfl⟩⟩
        rw [hnone, hleft]
        rfl
      · have hlength : (pending s').length < fuel := by
          rw [hmore, List.length_cons] at hfuel
          omega
        have hstop : t.kind ≠ .blank → Ends (do undo; return t.indent) s' fun indent r =>
            Valid indentOf r ∧ pending r = (pending s).dropWhile isBlank ∧
              ((pending r = [] ∧ indent = 0) ∨
                ∃ n t ts, pending r = ⟨n, t⟩ :: ts ∧ t.indent = indent) := by
          intro hne
          refine hundo.bind ?_
          rintro - r ⟨hr, hagain⟩
          refine Ends.pure ⟨hr, ?_, .inr ⟨s'.lineNo, t, pending s', hagain.trans hmore, rfl⟩⟩
          rw [hagain, hmore, List.dropWhile_cons_of_neg]
          exact fun hblank => hne (of_decide_eq_true hblank)
        cases hkind : t.kind with
        | eof => exact absurd hkind hinside
        | blank =>
            refine (ih hvalid hlength).mono ?_
            rintro indent r ⟨hr, hdrop, hindent⟩
            refine ⟨hr, ?_, hindent⟩
            have hblank : isBlank ⟨s'.lineNo, t⟩ = true := decide_eq_true hkind
            rw [hdrop, hmore, List.dropWhile_cons_of_pos hblank]
        | comment => exact hstop (hkind ▸ nofun)
        | line => exact hstop (hkind ▸ nofun)

/-- The depth of an entry. -/
def depth (indentOf : ℕ → ℕ) (e : Entry) : ℕ := indentOf e.lineNo

/-- What `parse_line` gives out: nothing at the end of the file, or a tree at the indentation. -/
def IsLine (indentOf : ℕ → ℕ) (indent : ℕ) (s : ReadLines) (line : Option Parse) (s' : ReadLines) :
    Prop :=
  Goes indentOf s s' ∧
    match line with
    | none => pending s' = [] ∧ describe [] (pending s) = []
    | some t =>
        (pending s').length < (pending s).length ∧ Next s' (fun t => t.kind ≠ .blank) ∧
          Block (depth indentOf) indent [t] ∧
            describe [] (pending s) = t.preorder ++ describe [] (pending s')

/-- What `parse_sub_lines` gives out: a block that is indented more. -/
def IsBody (indentOf : ℕ → ℕ) (indent : ℤ) (s : ReadLines) (ts : List Parse) (s' : ReadLines) :
    Prop :=
  Goes indentOf s s' ∧ Next s' (fun t => t.kind ≠ .blank) ∧
    (∃ m : ℕ, indent < m ∧ Block (depth indentOf) m ts) ∧
      describe [] (pending s) = preorder ts ++ describe [] (pending s')

/-- What its loop gives out: a block that goes on to the first line that is indented less. -/
def IsBlock (indentOf : ℕ → ℕ) (indent : ℕ) (s : ReadLines) (ts : List Parse) (s' : ReadLines) :
    Prop :=
  Goes indentOf s s' ∧ Next s' (fun t => t.kind ≠ .blank ∧ t.indent < indent) ∧
    Block (depth indentOf) indent ts ∧
      describe [] (pending s) = preorder ts ++ describe [] (pending s')

theorem get_ends (s : ReadLines) : Ends get s fun r s' => r = s ∧ s' = s := ⟨rfl, rfl⟩

theorem parseLine_step {fuel indent : ℕ}
    (hsub : ∀ s (indent : ℤ), Valid indentOf s → 3 * (pending s).length + 4 ≤ fuel →
      Ends (parseSubLines fuel indent) s (IsBody indentOf indent s))
    (h : Valid indentOf s) (hfuel : 3 * (pending s).length + 2 ≤ fuel + 1) :
    Ends (parseLine (fuel + 1) indent) s (IsLine indentOf indent s) := by
  rw [parseLine]
  refine (parseComments_ends h (by omega)).bind ?_
  rintro comments r ⟨hgoes, hnext, hdescribe⟩
  refine (readLine_ends hgoes.valid).bind ?_
  rintro t s' ⟨hvalid, -, hcases⟩
  refine (get_ends s').bind ?_
  rintro q q' ⟨hq, hq'⟩
  rw [hq, hq']
  rcases hcases with ⟨hnone, hleft, hkind⟩ | ⟨hinside, hmore⟩
  · dsimp only
    rw [hkind]
    refine (warnIf_ends hvalid _ _).bind ?_
    rintro - q ⟨hq, hsame⟩
    rw [hleft] at hsame
    refine Ends.pure ⟨⟨hq, ?_⟩, hsame, ?_⟩
    · rw [hsame]
      exact List.nil_suffix
    · rw [hdescribe, hnone]
      rfl
  · have hkind : t.kind = .line := hnext ⟨s'.lineNo, t⟩ (by rw [hmore]; rfl)
    have hgood := hgoes.valid.good ⟨s'.lineNo, t⟩ (hmore ▸ List.mem_cons_self)
    have hlength : (pending s').length < (pending s).length := by
      have hle := hgoes.length_le
      rw [hmore, List.length_cons] at hle
      omega
    dsimp only
    rw [hkind]
    by_cases hindent : t.indent = indent
    · dsimp only
      rw [if_neg (not_not.mpr hindent)]
      refine (hsub s' indent hvalid (by omega)).bind ?_
      rintro body q ⟨hbody, hnonblank, ⟨m, hlt, hblock⟩, hrest⟩
      refine Ends.pure ⟨hgoes.trans ((Goes.after hvalid hmore).trans hbody), ?_, hnonblank, ?_, ?_⟩
      · exact Nat.lt_of_le_of_lt hbody.length_le hlength
      · exact .cons ((hgood.indent hkind).trans hindent) (Int.ofNat_lt.mp hlt) hblock (.nil indent)
      · rw [hdescribe, hmore, describe_line hkind, hrest, Rose.preorder, List.cons_append]
    · dsimp only
      rw [if_pos hindent]
      exact Ends.fail IsIndentation.line

theorem parseSubLines_step {fuel : ℕ} {indent : ℤ}
    (hlines : ∀ s indent, Valid indentOf s → 3 * (pending s).length + 3 ≤ fuel →
      Ends (parseLines fuel indent) s (IsBlock indentOf indent s))
    (h : Valid indentOf s) (hfuel : 3 * (pending s).length + 4 ≤ fuel + 1) :
    Ends (parseSubLines (fuel + 1) indent) s (IsBody indentOf indent s) := by
  rw [parseSubLines]
  refine (findNewIndent_ends h (by omega)).bind ?_
  rintro newIndent r ⟨hvalid, hdrop, -⟩
  have hgoes : Goes indentOf s r := ⟨hvalid, hdrop ▸ List.dropWhile_suffix _⟩
  have hle := hgoes.length_le
  have hdescribe : describe [] (pending s) = describe [] (pending r) := by
    rw [hdrop, describe_dropWhile]
  by_cases hlt : indent < newIndent
  · rw [if_pos hlt]
    refine (hlines r newIndent hvalid (by omega)).mono ?_
    rintro ts q ⟨hblock, hnext, hlayout, hrest⟩
    refine ⟨hgoes.trans hblock, fun t ht => (hnext t ht).1, ⟨newIndent, hlt, hlayout⟩, ?_⟩
    rw [hdescribe, hrest]
  · rw [if_neg hlt]
    refine Ends.pure ⟨hgoes, ?_, ⟨(indent + 1).toNat, by omega, .nil _⟩, hdescribe⟩
    intro t ht hblank
    rw [hdrop] at ht
    have hfalse := List.head?_dropWhile_not isBlank (pending s)
    rw [ht] at hfalse
    exact Bool.false_ne_true (hfalse.symm.trans (decide_eq_true hblank))

theorem parseLines_step {fuel indent : ℕ}
    (hline : ∀ s indent, Valid indentOf s → 3 * (pending s).length + 2 ≤ fuel →
      Ends (parseLine fuel indent) s (IsLine indentOf indent s))
    (hlines : ∀ s indent, Valid indentOf s → 3 * (pending s).length + 3 ≤ fuel →
      Ends (parseLines fuel indent) s (IsBlock indentOf indent s))
    (h : Valid indentOf s) (hfuel : 3 * (pending s).length + 3 ≤ fuel + 1) :
    Ends (parseLines (fuel + 1) indent) s (IsBlock indentOf indent s) := by
  rw [parseLines]
  refine (hline s indent h (by omega)).bind ?_
  rintro (_ | t) r ⟨hgoes, hline⟩
  · obtain ⟨hnone, hdescribe⟩ := hline
    refine Ends.pure ⟨hgoes, ?_, .nil indent, ?_⟩
    · unfold Next
      rw [hnone]
      nofun
    · rw [hdescribe, hnone]
      rfl
  · obtain ⟨hlength, hnonblank, hlayout, hdescribe⟩ := hline
    refine (lookahead_ends hgoes.valid).bind ?_
    rintro u q ⟨hq, hsame, hhead⟩
    have hon : Goes indentOf s q := hgoes.trans (.same hq hsame)
    by_cases hmore : indent < u.indent
    · rw [if_pos hmore]
      exact Ends.fail IsIndentation.level
    · rw [if_neg hmore]
      by_cases hless : u.indent < indent
      · rw [if_pos hless]
        refine Ends.pure ⟨hon, ?_, hlayout, ?_⟩
        · intro v hv
          rw [hsame] at hv
          refine ⟨hnonblank v hv, ?_⟩
          rcases hhead with ⟨hnone, -⟩ | ⟨n, ts, hcons⟩
          · rw [hnone] at hv
            cases hv
          · rw [hcons] at hv
            cases hv
            exact hless
        · rw [hsame, hdescribe, preorder, preorder, List.append_nil]
      · rw [if_neg hless]
        refine (hlines q indent hq (by rw [hsame]; omega)).bind ?_
        rintro ts z ⟨hblock, hnext, hrest, hdescribes⟩
        refine Ends.pure ⟨hon.trans hblock, hnext, hlayout.beside hrest, ?_⟩
        rw [hdescribe, ← hsame, hdescribes, preorder, List.append_assoc]

/-- Enough fuel is three calls for each line. -/
theorem parse_ends (indentOf : ℕ → ℕ) (fuel : ℕ) :
    (∀ s indent, Valid indentOf s → 3 * (pending s).length + 2 ≤ fuel →
      Ends (parseLine fuel indent) s (IsLine indentOf indent s)) ∧
    (∀ s (indent : ℤ), Valid indentOf s → 3 * (pending s).length + 4 ≤ fuel →
      Ends (parseSubLines fuel indent) s (IsBody indentOf indent s)) ∧
    (∀ s indent, Valid indentOf s → 3 * (pending s).length + 3 ≤ fuel →
      Ends (parseLines fuel indent) s (IsBlock indentOf indent s)) := by
  induction fuel with
  | zero =>
      refine ⟨?_, ?_, ?_⟩ <;>
      · intro s indent _ hfuel
        exact absurd hfuel (Nat.not_succ_le_zero _)
  | succ fuel ih =>
      obtain ⟨hline, hsub, hlines⟩ := ih
      exact ⟨fun s indent => parseLine_step hsub, fun s indent => parseSubLines_step hlines,
        fun s indent => parseLines_step hline hlines⟩

end parser

/-! ### Files -/

/-- The file with these lines. -/
def file (lines : List (List Char)) : List (List Char) := lines.map (· ++ ['\n'])

/-- The body lines of a file with their numbers. -/
def bodyLines (input : List (List Char)) : List (ℕ × List Char) :=
  (tokens 0 input).filterMap fun t =>
    if t.token.kind = .line then some (t.lineNo, t.token.text) else none

/-- No line is indented less than the first that is not blank. -/
def FirstLeast (input : List (List Char)) : Prop :=
  ∀ first ∈ ((tokens 0 input).dropWhile isBlank).head?,
    ∀ t ∈ tokens 0 input, t.token.kind ≠ .blank → first.token.indent ≤ t.token.indent

instance (input : List (List Char)) : Decidable (FirstLeast input) :=
  inferInstanceAs (Decidable (∀ first ∈ ((tokens 0 input).dropWhile isBlank).head?,
    ∀ t ∈ tokens 0 input, t.token.kind ≠ .blank → first.token.indent ≤ t.token.indent))

/-- The forest of a file: the body lines in the order of the file, each with its number and with the
comments that stand directly before it.  The parent of a line is the nearest line before it that is
indented less, and siblings are indented alike. -/
structure IsForest (input : List (List Char)) (forest : List Parse) : Prop where
  entries : preorder forest = describe [] (tokens 0 input)
  lines : (preorder forest).map (fun e => (e.lineNo, e.line)) = bodyLines input
  parents : parents none forest = withNearest (depth (indentAt input)) [] (preorder forest)
  siblings : ∀ family ∈ families forest, ∀ a ∈ family, ∀ b ∈ family,
    indentAt input a.lineNo = indentAt input b.lineNo

/-- What may come of a file. -/
inductive Built (input : List (List Char)) : Except Exit (List Parse) → Prop
  | error {e : Exit} (h : IsIndentation e) : Built input (.error e)
  | forest {forest : List Parse} (h : IsForest input forest) : Built input (.ok forest)

theorem describe_lines (comments : List (List Char)) (ts : List Numbered) :
    (describe comments ts).map (fun e => (e.lineNo, e.line)) = ts.filterMap fun t =>
      if t.token.kind = .line then some (t.lineNo, t.token.text) else none := by
  induction ts generalizing comments with
  | nil => rfl
  | cons t ts ih =>
      rw [describe, List.filterMap_cons]
      cases t.token.kind with
      | eof => exact ih comments
      | blank => exact ih []
      | comment => exact ih (comments ++ [t.token.text])
      | line =>
          rw [if_pos rfl]
          exact congrArg (_ :: ·) (ih [])

theorem tokens_length (n : ℕ) (input : List (List Char)) :
    (tokens n input).length ≤ input.length := by
  induction input generalizing n with
  | nil => exact Nat.le_refl _
  | cons line rest ih =>
      rw [tokens]
      have hle := ih (n + 1)
      split
      · exact Nat.le_succ_of_le hle
      · exact Nat.succ_le_succ hle

theorem valid_init (warn : Bool) (lines : List (List Char)) :
    Valid (indentAt (file lines)) (ReadLines.init (file lines) warn) where
  newline := by
    intro line hline
    obtain ⟨l, -, rfl⟩ := List.mem_map.mp hline
    exact List.getLast?_concat
  good := tokens_good (file lines)
  atEnd := nofun

/-- The parser gives out the forest of the file, or an error. -/
theorem parseFile_forest (warn : Bool) (lines : List (List Char))
    (hfirst : FirstLeast (file lines)) : Built (file lines) (parseFile warn (file lines)) := by
  have hvalid := valid_init warn lines
  have hlength : (pending (ReadLines.init (file lines) warn)).length ≤ (file lines).length :=
    tokens_length 0 (file lines)
  have hends : Ends (parseSubLines (3 * (file lines).length + 4) (-1))
      (ReadLines.init (file lines) warn) fun forest _ =>
        preorder forest = describe [] (tokens 0 (file lines)) ∧
          ∃ n, Block (depth (indentAt (file lines))) n forest := by
    rw [parseSubLines]
    refine (findNewIndent_ends hvalid (by omega)).bind ?_
    rintro indent r ⟨hr, hdrop, hhead⟩
    have hle := (hdrop ▸ List.dropWhile_suffix _ : pending r <:+ pending _).length_le
    rw [if_pos (by omega)]
    refine ((parse_ends (indentAt (file lines)) _).2.2 r indent hr (by omega)).mono ?_
    rintro forest s ⟨hgoes, hnext, hblock, hdescribe⟩
    have hend : pending s = [] := by
      cases hleft : pending s with
      | nil => rfl
      | cons t ts =>
          obtain ⟨hkind, hlt⟩ := hnext t (by rw [hleft]; rfl)
          have hmem : t ∈ pending r := hgoes.rest.subset (hleft ▸ List.mem_cons_self)
          rcases hhead with ⟨hnone, -⟩ | ⟨n, u, us, hcons, hindent⟩
          · rw [hnone] at hmem
            cases hmem
          · have hhere : (⟨n, u⟩ : Numbered) ∈ ((tokens 0 (file lines)).dropWhile isBlank).head? := by
              have hdropped : (tokens 0 (file lines)).dropWhile isBlank = ⟨n, u⟩ :: us :=
                hdrop.symm.trans hcons
              rw [hdropped]
              rfl
            have hinput : t ∈ tokens 0 (file lines) :=
              (List.dropWhile_suffix isBlank).subset (hdrop ▸ hmem)
            have hleast := hfirst _ hhere t hinput hkind
            rw [← hindent] at hlt
            exact absurd hlt (Nat.not_lt.mpr hleast)
    refine ⟨?_, indent, hblock⟩
    rw [hend, hdrop, describe_dropWhile] at hdescribe
    exact (hdescribe.trans (List.append_nil _)).symm
  have hrun : parseFile warn (file lines) =
      (parseSubLines (3 * (file lines).length + 4) (-1)).run' (ReadLines.init (file lines) warn) :=
    rfl
  unfold Ends at hends
  cases hparse : parseSubLines (3 * (file lines).length + 4) (-1)
      (ReadLines.init (file lines) warn) with
  | error e =>
      have hresult : parseFile warn (file lines) = .error e := by
        rw [hrun]
        show (fun p => p.1) <$> parseSubLines _ _ _ = _
        rw [hparse]
        rfl
      rw [hparse] at hends
      rw [hresult]
      exact .error hends
  | ok p =>
      obtain ⟨forest, s⟩ := p
      have hresult : parseFile warn (file lines) = .ok forest := by
        rw [hrun]
        show (fun p => p.1) <$> parseSubLines _ _ _ = _
        rw [hparse]
        rfl
      rw [hparse] at hends
      rw [hresult]
      obtain ⟨hpreorder, n, hblock⟩ := hends
      refine .forest ⟨hpreorder, ?_, hblock.parents_eq fun a _ => rfl, hblock.siblings⟩
      rw [hpreorder]
      exact describe_lines [] (tokens 0 (file lines))

/-- A line with two lines below it, the first of them with a comment and a line of its own. -/
def sample : List (List Char) :=
  [['a'], [' ', ' ', '#', 'x'], [' ', ' ', 'b'], [' ', ' ', ' ', ' ', 'c'], [' ', ' ', 'd']]

/-- The parents of its lines are the lines before them that are indented less. -/
theorem parseFile_forest_sample :
    ∃ forest, parseFile true (file sample) = .ok forest ∧
      parents none forest = withNearest (depth (indentAt (file sample))) [] (preorder forest) := by
  have hforest := parseFile_forest true sample (by decide +kernel)
  have hparsed : (parseFile true (file sample)).toOption.isSome = true := by decide +kernel
  generalize parseFile true (file sample) = result at hforest hparsed ⊢
  cases hforest with
  | error h => cases hparsed
  | forest h => exact ⟨_, rfl, h.parents⟩

/-- A comment before a blank line is in no entry. -/
theorem blank_discards_comments :
    let input := file [['#', 'x'], [], ['a']]
    ⟨1, ⟨.comment, 0, ['x']⟩⟩ ∈ tokens 0 input ∧
      (parseFile true input).toOption.map preorder = some [⟨['a'], [], 3⟩] := by
  decide +kernel
end Mbf.Indent
