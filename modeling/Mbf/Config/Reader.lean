import Mbf.Lib.Parser
import Mathlib.Data.List.Basic

/-! # Reading the lines of a configuration file

`read_one_line` and `read_line` of `config_file.c`.  The lines are read with `fgets` into a buffer of
`LINE_SIZE` characters; a line that ends in a backslash is continued at the place of the backslash.

What the lines of a file are is stated on its own (`logicalLines`), with the room they need in the
buffer (`hasRoom`).  A null character hides the rest of what `fgets` has read, so that the lines are
those of another text (`seen`); a text without one is seen as it is. -/

namespace Mbf.Config

/-- How the reading can end early. -/
inductive Fault where
  /-- An error is returned. -/
  | message (messages : List String)
  /-- An internal assertion fails. -/
  | assertion
  /-- A character is written past the end of the line buffer. -/
  | overrun
deriving DecidableEq, Repr

/-- The terminating character of a string. -/
def nul : Char := Char.ofNat 0

/-- `LINE_SIZE`. -/
def lineSize : ℕ := 200

/-! ### The buffer -/

/-- Write to the buffer. -/
def store (buffer : List Char) (pos : ℕ) (bytes : List Char) : Except Fault (List Char) :=
  if pos + bytes.length ≤ buffer.length then
    .ok (buffer.take pos ++ bytes ++ buffer.drop (pos + bytes.length))
  else .error .overrun

/-- The string in the buffer from a position on. -/
def stringAt (buffer : List Char) (pos : ℕ) : List Char :=
  (buffer.drop pos).takeWhile fun c => decide (c ≠ nul)

/-- What `fgets` reads, at most `n` characters, and what it leaves. -/
def fgets : ℕ → List Char → List Char × List Char
  | 0, input => ([], input)
  | _, [] => ([], [])
  | n + 1, c :: input =>
      if c = '\n' then (['\n'], input)
      else (c :: (fgets n input).1, (fgets n input).2)

/-! ### The reader -/

/-- What `read_one_line` returns. -/
structure OneLine where
  buffer : List Char
  input : List Char
  lengthRead : ℕ
  eof : Bool

/-- `read_one_line`. -/
def readOneLine (buffer : List Char) (pos lineLength lineNumber : ℕ) (input : List Char) :
    Except Fault OneLine :=
  if input = [] then
    match store buffer pos [nul] with
    | .error fault => .error fault
    | .ok buffer => .ok ⟨buffer, [], 0, true⟩
  else
    match store buffer pos ((fgets (lineLength - 1) input).1 ++ [nul]) with
    | .error fault => .error fault
    | .ok buffer =>
        let lengthRead := (stringAt buffer pos).length
        let input := (fgets (lineLength - 1) input).2
        if lengthRead = 0 then .error .assertion
        else if buffer[pos + lengthRead - 1]? = some '\n' then
          match store buffer (pos + lengthRead - 1) [nul] with
          | .error fault => .error fault
          | .ok buffer => .ok ⟨buffer, input, lengthRead - 1, false⟩
        else if lengthRead + 1 < lineLength then .ok ⟨buffer, input, lengthRead, false⟩
        else .error (.message [s!"Read buffer overflow on line {lineNumber}"])

/-! ### The lines of a file -/

/-- The lines of a text, after a line that ends in a backslash is joined with the next. -/
def logicalLines : List Char → List (List Char)
  | [] => [[]]
  | ['\\'] => [[]]
  | '\\' :: '\n' :: rest => logicalLines rest
  | '\n' :: rest => [] :: logicalLines rest
  | c :: rest => (logicalLines rest).modifyHead (c :: ·)

/-- Every line, with its backslash, leaves room in the buffer for the end of line and the terminating
character.  `k` characters of the first line are there already. -/
def hasRoom : ℕ → List Char → Bool
  | k, [] => k + 2 ≤ lineSize
  | k, '\n' :: rest => k + 2 ≤ lineSize && hasRoom 0 rest
  | k, '\\' :: '\n' :: rest => k + 1 + 2 ≤ lineSize && hasRoom k rest
  | k, _ :: rest => hasRoom (k + 1) rest

/-- What is seen of the rest of a file, if `k` characters of a line are in the buffer already: a null
character ends the line, and hides what else `fgets` has read.  The flag tells that the reading stops
at a piece that starts with one. -/
def seen (k : ℕ) (input : List Char) : List Char × Bool :=
  let piece := (fgets (lineSize - k - 1) input).1
  let rest := (fgets (lineSize - k - 1) input).2
  let line := piece.takeWhile fun c => decide (c ≠ nul ∧ c ≠ '\n')
  if piece.head? = some nul then ([], true)
  else if _h : rest.length < input.length then
    let more := seen (if line.getLast? = some '\\' then k + (line.length - 1) else 0) rest
    ((if nul ∈ piece then line ++ ['\n'] else piece) ++ more.1, more.2)
  else (input, false)
termination_by input.length

/-! ### What the parts do -/

section parts
variable {buffer b p tail bytes input l rest : List Char} {pos n lineLength lineNumber : ℕ}

theorem store_eq_ok (h : store buffer pos bytes = .ok b) :
    pos + bytes.length ≤ buffer.length ∧
      b = buffer.take pos ++ bytes ++ buffer.drop (pos + bytes.length) := by
  unfold store at h
  split at h
  · exact ⟨‹_›, (Except.ok.inj h).symm⟩
  · cases h

theorem store_length (h : store buffer pos bytes = .ok b) : b.length = buffer.length := by
  obtain ⟨hle, rfl⟩ := store_eq_ok h
  rw [List.length_append, List.length_append, List.length_take, List.length_drop]
  omega

theorem store_drop (h : store buffer pos bytes = .ok b) :
    b.drop pos = bytes ++ buffer.drop (pos + bytes.length) := by
  obtain ⟨hle, rfl⟩ := store_eq_ok h
  have hlength : (buffer.take pos).length = pos := by
    rw [List.length_take]
    omega
  rw [List.append_assoc]
  exact List.drop_left' hlength

/-- Writing behind what is there. -/
theorem store_append (h : bytes.length ≤ tail.length) :
    store (p ++ tail) p.length bytes = .ok (p ++ bytes ++ tail.drop bytes.length) := by
  unfold store
  rw [if_pos (by rw [List.length_append]; omega), List.take_left,
    List.drop_length_add_append]

theorem fgets_append : (fgets n input).1 ++ (fgets n input).2 = input := by
  induction n generalizing input with
  | zero => rfl
  | succ n ih =>
      cases input with
      | nil => rfl
      | cons c input =>
          unfold fgets
          split
          · rename_i hc
            subst hc
            rfl
          · exact congrArg (c :: ·) ih

theorem fgets_length_le : (fgets n input).1.length ≤ n := by
  induction n generalizing input with
  | zero => exact Nat.le_refl 0
  | succ n ih =>
      cases input with
      | nil => exact Nat.zero_le _
      | cons c input =>
          unfold fgets
          split
          · exact Nat.succ_le_succ (Nat.zero_le n)
          · exact Nat.succ_le_succ ih

/-- Nothing is read past the end of a line. -/
theorem fgets_newline : '\n' ∉ (fgets n input).1.dropLast := by
  induction n generalizing input with
  | zero => exact List.not_mem_nil
  | succ n ih =>
      cases input with
      | nil => exact List.not_mem_nil
      | cons c input =>
          unfold fgets
          split
          · exact List.not_mem_nil
          · rename_i hc
            cases hpiece : (fgets n input).1 with
            | nil => exact List.not_mem_nil
            | cons d piece =>
                have hrest := @ih input
                rw [hpiece] at hrest
                exact List.not_mem_cons_of_ne_of_not_mem (Ne.symm hc) hrest

/-- Without an end of line, the reading stops at the limit or at the end of the file. -/
theorem fgets_stops (h : '\n' ∉ (fgets n input).1) :
    (fgets n input).1.length = n ∨ (fgets n input).2 = [] := by
  induction n generalizing input with
  | zero => exact .inl rfl
  | succ n ih =>
      cases input with
      | nil => exact .inr rfl
      | cons c input =>
          unfold fgets at h ⊢
          split
          · rename_i hc
            rw [if_pos hc] at h
            exact absurd (List.mem_singleton_self _) h
          · rename_i hc
            rw [if_neg hc] at h
            exact (ih (List.not_mem_of_not_mem_cons h)).imp_left (congrArg Nat.succ)

theorem fgets_nil : fgets n [] = ([], []) := by
  cases n <;> rfl

theorem stringAt_nul (h : store buffer pos (bytes ++ [nul]) = .ok b) (hbytes : nul ∉ bytes) :
    stringAt b pos = bytes := by
  unfold stringAt
  rw [store_drop h, List.append_assoc]
  have hspan : Parsing.Span (fun c => decide (c ≠ nul)) (bytes ++ ([nul] ++ buffer.drop
      (pos + (bytes ++ [nul]).length))) bytes ([nul] ++ buffer.drop
      (pos + (bytes ++ [nul]).length)) := by
    refine ⟨rfl, fun c hc => ?_, fun c hc => ?_⟩
    · exact decide_eq_true fun h => hbytes (h ▸ hc)
    · obtain rfl := Option.some.inj hc
      rfl
  exact hspan.takeWhile_eq

/-- A line read before the end of the file takes something from it. -/
theorem readOneLine_shorter {r : OneLine}
    (h : readOneLine buffer pos lineLength lineNumber input = .ok r)
    (heof : r.eof = false) : r.input.length < input.length := by
  unfold readOneLine at h
  split at h
  · split at h
    · cases h
    · obtain rfl := Except.ok.inj h
      cases heof
  · split at h
    · cases h
    · rename_i b hstore
      have happend : (fgets (lineLength - 1) input).1.length +
          (fgets (lineLength - 1) input).2.length = input.length := by
        rw [← List.length_append, fgets_append]
      have hne : (stringAt b pos).length ≠ 0 → (fgets (lineLength - 1) input).1 ≠ [] := by
        intro hlength hnil
        rw [hnil] at hstore
        have hstring := stringAt_nul hstore (List.not_mem_nil)
        rw [hstring] at hlength
        exact hlength rfl
      dsimp only at h
      split at h
      · cases h
      · have := List.length_pos_iff.mpr (hne ‹_›)
        split at h
        · split at h
          · cases h
          · obtain rfl := Except.ok.inj h
            dsimp only
            omega
        · split at h
          · obtain rfl := Except.ok.inj h
            dsimp only
            omega
          · cases h

end parts

/-! ### The loops -/

/-- What `read_line` returns, with the number of the line. -/
structure ReadLine where
  buffer : List Char
  input : List Char
  lineNumber : ℕ
  eof : Bool

/-- `read_line`. -/
def readLine (buffer : List Char) (pos lineLength lineNumber : ℕ) (input : List Char) :
    Except Fault ReadLine :=
  match h : readOneLine buffer pos lineLength (lineNumber + 1) input with
  | .error fault => .error fault
  | .ok r =>
      if hwant : r.eof = false ∧ 0 < r.lengthRead ∧
          r.buffer[pos + r.lengthRead - 1]? = some '\\' then
        if 2 < lineLength - (r.lengthRead - 1) then
          readLine r.buffer (pos + (r.lengthRead - 1)) (lineLength - (r.lengthRead - 1))
            (lineNumber + 1) r.input
        else .error (.message [s!"Run out of read buffer on line {lineNumber + 1}"])
      else .ok ⟨r.buffer, r.input, lineNumber + 1, r.eof⟩
termination_by input.length
decreasing_by exact readOneLine_shorter h hwant.1

/-! ### The buffer is not overrun -/

section safety
variable {buffer input : List Char} {pos lineLength lineNumber : ℕ}

/-- The place in the buffer, and the room from there to its end. -/
structure Placed (buffer : List Char) (pos lineLength : ℕ) : Prop where
  size : buffer.length = lineSize
  room : pos + lineLength = lineSize
  enough : 2 < lineLength

theorem stringAt_length (buffer : List Char) (pos : ℕ) :
    (stringAt buffer pos).length ≤ buffer.length - pos := by
  unfold stringAt
  rw [← List.length_drop]
  exact (List.takeWhile_sublist _).length_le

theorem store_safe (buffer : List Char) (pos : ℕ) (bytes : List Char)
    (hle : pos + bytes.length ≤ buffer.length) :
    ∃ b, store buffer pos bytes = .ok b :=
  ⟨_, if_pos hle⟩

theorem readOneLine_safe (h : Placed buffer pos lineLength) :
    (∃ fault, readOneLine buffer pos lineLength lineNumber input = .error fault ∧
      fault ≠ .overrun) ∨
    ∃ r, readOneLine buffer pos lineLength lineNumber input = .ok r ∧
      r.buffer.length = lineSize ∧ r.lengthRead ≤ lineLength := by
  obtain ⟨hsize, hroom, henough⟩ := h
  unfold readOneLine
  split
  · obtain ⟨b, hb⟩ := store_safe buffer pos [nul] (by
      show pos + 1 ≤ _
      omega)
    rw [hb]
    exact .inr ⟨_, rfl, (store_length hb).trans hsize, Nat.zero_le _⟩
  · have hfgets : (fgets (lineLength - 1) input).1.length ≤ lineLength - 1 := fgets_length_le
    obtain ⟨b, hb⟩ := store_safe buffer pos ((fgets (lineLength - 1) input).1 ++ [nul]) (by
        rw [List.length_append]
        show pos + (_ + 1) ≤ _
        omega)
    have hlength := (store_length hb).trans hsize
    have hstring := stringAt_length b pos
    rw [hb]
    dsimp only
    split
    · exact .inl ⟨_, rfl, by decide⟩
    · split
      · obtain ⟨b', hb'⟩ := store_safe b (pos + (stringAt b pos).length - 1) [nul] (by
            show _ + 1 ≤ _
            omega)
        rw [hb']
        refine .inr ⟨_, rfl, (store_length hb').trans hlength, ?_⟩
        dsimp only
        omega
      · split
        · refine .inr ⟨_, rfl, hlength, ?_⟩
          dsimp only
          omega
        · exact .inl ⟨_, rfl, nofun⟩

/-- Joining lines does not write past the buffer, whatever is read. -/
theorem readLine_safe (h : Placed buffer pos lineLength) :
    (∃ fault, readLine buffer pos lineLength lineNumber input = .error fault ∧
      fault ≠ .overrun) ∨
    ∃ r, readLine buffer pos lineLength lineNumber input = .ok r ∧ r.buffer.length = lineSize := by
  fun_induction readLine buffer pos lineLength lineNumber input with
  | case1 buffer pos lineLength lineNumber input fault hread =>
      rcases readOneLine_safe h with ⟨fault', hfault, hsafe⟩ | ⟨r, hr, -⟩
      · rw [hread] at hfault
        obtain rfl := Except.error.inj hfault
        exact .inl ⟨fault, rfl, hsafe⟩
      · rw [hread] at hr
        cases hr
  | case2 buffer pos lineLength lineNumber input r hread hwant hroom ih =>
      rcases readOneLine_safe h with ⟨fault, hfault, -⟩ | ⟨r', hr, hsize, hlength⟩
      · rw [hread] at hfault
        cases hfault
      · rw [hread] at hr
        obtain rfl := Except.ok.inj hr
        have := h.room
        exact ih ⟨hsize, by omega, hroom⟩
  | case3 buffer pos lineLength lineNumber input r hread hwant hroom => exact .inl ⟨_, rfl, nofun⟩
  | case4 buffer pos lineLength lineNumber input r hread hwant =>
      rcases readOneLine_safe h with ⟨fault, hfault, -⟩ | ⟨r', hr, hsize, -⟩
      · rw [hread] at hfault
        cases hfault
      · rw [hread] at hr
        obtain rfl := Except.ok.inj hr
        exact .inr ⟨_, rfl, hsize⟩

end safety

/-! ### Physical lines -/

section physical
variable {l m rest : List Char} {c : Char} {k : ℕ}

theorem logicalLines_cons (hc : c ≠ '\n') (hrest : c = '\\' → rest ≠ [] ∧ rest.head? ≠ some '\n') :
    logicalLines (c :: rest) = (logicalLines rest).modifyHead (c :: ·) := by
  rw [logicalLines.eq_def]
  split
  · rename_i heq
    cases heq
  · rename_i heq
    obtain ⟨rfl, rfl⟩ := List.cons.inj heq
    exact absurd rfl (hrest rfl).1
  · rename_i heq
    obtain ⟨rfl, rfl⟩ := List.cons.inj heq
    exact absurd rfl (hrest rfl).2
  · rename_i heq
    exact absurd (List.cons.inj heq).1 hc
  · rename_i heq
    obtain ⟨rfl, rfl⟩ := List.cons.inj heq
    rfl

theorem hasRoom_cons (hc : c ≠ '\n') (hrest : c = '\\' → rest.head? ≠ some '\n') :
    hasRoom k (c :: rest) = hasRoom (k + 1) rest := by
  rw [hasRoom.eq_def]
  split
  · rename_i heq
    cases heq
  · rename_i heq
    exact absurd (List.cons.inj heq).1 hc
  · rename_i heq
    obtain ⟨rfl, rfl⟩ := List.cons.inj heq
    exact absurd rfl (hrest rfl)
  · rename_i heq
    obtain ⟨rfl, rfl⟩ := List.cons.inj heq
    rfl

/-- `m` can be followed by `t` without a break at the join. -/
def Joins (m t : List Char) : Prop :=
  '\n' ∉ m ∧ (m.getLast? = some '\\' → t ≠ [] ∧ t.head? ≠ some '\n')

theorem Joins.tail {t : List Char} (h : Joins (c :: m) t) : Joins m t := by
  refine ⟨List.not_mem_of_not_mem_cons h.1, fun hlast => h.2 ?_⟩
  cases m with
  | nil => cases hlast
  | cons d m => rwa [List.getLast?_cons_cons]

theorem Joins.head {t : List Char} (h : Joins (c :: m) t) (hc : c = '\\') :
    m ++ t ≠ [] ∧ (m ++ t).head? ≠ some '\n' := by
  cases m with
  | nil => exact h.2 (congrArg some hc)
  | cons d m =>
      refine ⟨List.cons_ne_nil _ _, fun hd => ?_⟩
      obtain rfl := Option.some.inj hd
      exact h.1 (List.mem_cons_of_mem _ List.mem_cons_self)

theorem logicalLines_append {t : List Char} (h : Joins m t) :
    logicalLines (m ++ t) = (logicalLines t).modifyHead (m ++ ·) := by
  induction m with
  | nil =>
      show logicalLines t = _
      cases logicalLines t with
      | nil => rfl
      | cons _ _ => rfl
  | cons c m ih =>
      rw [List.cons_append, logicalLines_cons (Ne.symm (List.ne_of_not_mem_cons h.1)) h.head,
        ih h.tail, List.modifyHead_modifyHead]
      rfl

theorem hasRoom_append {t : List Char} (h : Joins m t) :
    hasRoom k (m ++ t) = hasRoom (k + m.length) t := by
  induction m generalizing k with
  | nil => rfl
  | cons c m ih =>
      rw [List.cons_append, hasRoom_cons (Ne.symm (List.ne_of_not_mem_cons h.1))
        (fun hc => (h.head hc).2), ih h.tail, List.length_cons]
      congr 1
      omega

theorem hasRoom_full (hk : lineSize ≤ k + 1) (t : List Char) : hasRoom k t = false := by
  fun_induction hasRoom k t with
  | case1 => exact decide_eq_false (by omega)
  | case2 => rw [decide_eq_false (by omega), Bool.false_and]
  | case3 => rw [decide_eq_false (by omega), Bool.false_and]
  | case4 _ _ _ _ _ ih => exact ih (by omega)

/-- A line that fills the buffer has no room. -/
theorem hasRoom_long {t : List Char} (hm : '\n' ∉ m) (hk : lineSize ≤ k + m.length + 1) :
    hasRoom k (m ++ t) = false := by
  induction m generalizing k with
  | nil => exact hasRoom_full hk t
  | cons c m ih =>
      have hc := Ne.symm (List.ne_of_not_mem_cons hm)
      have hm := List.not_mem_of_not_mem_cons hm
      rw [List.length_cons] at hk
      rw [List.cons_append]
      by_cases hjoin : c = '\\' ∧ (m ++ t).head? = some '\n'
      · obtain ⟨rfl, hhead⟩ := hjoin
        cases m with
        | nil =>
            obtain ⟨t, rfl⟩ := List.head?_eq_some_iff.mp hhead
            have hfull : ¬ k + 1 + 2 ≤ lineSize := by
              change lineSize ≤ k + 1 + 1 at hk
              omega
            rw [List.nil_append, hasRoom, decide_eq_false hfull, Bool.false_and]
        | cons d m =>
            obtain rfl := Option.some.inj hhead
            exact absurd (List.mem_cons_of_mem _ List.mem_cons_self) hm
      · rw [hasRoom_cons hc fun h hhead => hjoin ⟨h, hhead⟩]
        exact ih hm (by omega)

end physical

/-! ### Reading a text -/

section text
variable {input p m l tail rest : List Char} {c : Char} {lineLength lineNumber k : ℕ}

theorem getElem_append_cons (q t : List Char) : (q ++ c :: t)[q.length]? = some c := by
  rw [List.getElem?_append_right (Nat.le_refl _), Nat.sub_self]
  rfl

/-- At the end of the file what is in the buffer is ended. -/
theorem readOneLine_eof (htail : 0 < tail.length) :
    readOneLine (p ++ tail) p.length lineLength lineNumber [] =
      .ok ⟨p ++ [nul] ++ tail.drop 1, [], 0, true⟩ := by
  unfold readOneLine
  rw [if_pos rfl, store_append (show [nul].length ≤ tail.length from htail)]
  rfl

/-- What becomes of the characters that `fgets` has read. -/
theorem readOneLine_chunk (hinput : input ≠ [])
    (hfgets : fgets (lineLength - 1) input = (m ++ [c], rest)) (hnul : nul ∉ m ++ [c])
    (htail : m.length + 2 ≤ tail.length) :
    readOneLine (p ++ tail) p.length lineLength lineNumber input =
      if c = '\n' then .ok ⟨p ++ m ++ nul :: nul :: tail.drop (m.length + 2), rest, m.length, false⟩
      else if m.length + 2 < lineLength then
        .ok ⟨p ++ m ++ c :: nul :: tail.drop (m.length + 2), rest, m.length + 1, false⟩
      else .error (.message [s!"Read buffer overflow on line {lineNumber}"]) := by
  have hlength : (m ++ [c] ++ [nul]).length = m.length + 2 := by
    rw [List.length_append, List.length_append]
    rfl
  have hpos : p.length + (m.length + 1) - 1 = (p ++ m).length := by
    rw [List.length_append]
    omega
  have hstore : store (p ++ tail) p.length (m ++ [c] ++ [nul]) = .ok (p ++ (m ++ [c] ++ [nul]) ++
      tail.drop (m ++ [c] ++ [nul]).length) := store_append (hlength ▸ htail)
  have hstring := stringAt_nul hstore hnul
  have hbuffer : p ++ (m ++ [c] ++ [nul]) ++ tail.drop (m ++ [c] ++ [nul]).length =
      p ++ m ++ c :: nul :: tail.drop (m.length + 2) := by
    rw [hlength]
    simp only [List.append_assoc, List.cons_append, List.nil_append]
  unfold readOneLine
  rw [if_neg hinput, hfgets]
  dsimp only
  rw [hstore]
  dsimp only
  rw [hstring, List.length_append, List.length_singleton, if_neg (Nat.succ_ne_zero _), hbuffer,
    hpos, getElem_append_cons]
  by_cases hc : c = '\n'
  · rw [if_pos (congrArg some hc), if_pos hc,
      store_append (show [nul].length ≤ (c :: _).length from Nat.succ_le_succ (Nat.zero_le _))]
    simp only [List.length_singleton, List.drop_succ_cons, List.drop_zero, List.append_assoc,
      List.cons_append, List.nil_append, Nat.add_sub_cancel]
  · rw [if_neg (fun h => hc (Option.some.inj h)), if_neg hc]

/-- A line that starts with a null character looks empty, and the assertion fails. -/
theorem readOneLine_nul {buffer : List Char} {pos : ℕ} (h : Placed buffer pos lineLength) :
    readOneLine buffer pos lineLength lineNumber (nul :: rest) = .error .assertion := by
  have hfgets : (fgets (lineLength - 1) (nul :: rest)).1.length ≤ lineLength - 1 := fgets_length_le
  obtain ⟨b, hb⟩ := store_safe buffer pos ((fgets (lineLength - 1) (nul :: rest)).1 ++ [nul]) (by
    have := h.size
    have := h.room
    have := h.enough
    rw [List.length_append]
    show pos + (_ + 1) ≤ _
    omega)
  have hhead : ∃ t, (fgets (lineLength - 1) (nul :: rest)).1 = nul :: t := by
    obtain ⟨n, hn⟩ : ∃ n, lineLength - 1 = n + 1 := ⟨lineLength - 2, by have := h.enough; omega⟩
    rw [hn, fgets, if_neg (by decide)]
    exact ⟨_, rfl⟩
  have hstring : stringAt b pos = [] := by
    obtain ⟨t, ht⟩ := hhead
    unfold stringAt
    rw [store_drop hb, ht]
    rfl
  unfold readOneLine
  rw [if_neg (List.cons_ne_nil _ _), hb]
  dsimp only
  rw [hstring]
  rfl

/-- The input starts with the line `l`, and goes on with `rest`. -/
structure Starts (input l rest : List Char) : Prop where
  line : '\n' ∉ l
  text : nul ∉ l
  input : input = l ++ '\n' :: rest ∨ input = l ∧ rest = [] ∧ l ≠ []

theorem exists_last (hne : l ≠ []) : ∃ m c, l = m ++ [c] :=
  ⟨l.dropLast, l.getLast hne, (List.dropLast_append_getLast hne).symm⟩

/-- `fgets` reads a piece that is seen as the line `l`, and leaves `rest`. -/
structure Piece (n : ℕ) (input l rest : List Char) : Prop where
  line : '\n' ∉ l
  text : nul ∉ l
  fits : l.length + 2 ≤ n
  read : fgets (n - 1) input = (l ++ ['\n'], rest) ∨
    l ≠ [] ∧ (fgets (n - 1) input = (l, rest) ∧ rest = [] ∨
      ∃ hidden, fgets (n - 1) input = (l ++ nul :: hidden, rest))

/-- The rest of a file starts with a null character, or with a line, or the line has no room. -/
theorem exists_piece {n : ℕ} (hn : 2 < n) (hinput : input ≠ []) :
    input.head? = some nul ∨ (∃ l rest, Piece n input l rest) ∨
      '\n' ∉ (fgets (n - 1) input).1 ∧ nul ∉ (fgets (n - 1) input).1 ∧
        (fgets (n - 1) input).1.length = n - 1 := by
  have happend := @fgets_append input (n - 1)
  have hlength := @fgets_length_le input (n - 1)
  have hnewline := @fgets_newline input (n - 1)
  have hstops := @fgets_stops input (n - 1)
  rcases hfgets : fgets (n - 1) input with ⟨piece, rest⟩
  rw [hfgets] at happend hlength hnewline hstops
  dsimp only at happend hlength hnewline hstops
  by_cases hnul : nul ∈ piece
  · obtain ⟨l, hidden, rfl, hl⟩ := List.eq_append_cons_of_mem hnul
    cases l with
    | nil =>
        left
        rw [← happend]
        rfl
    | cons c l =>
        refine .inr (.inl ⟨c :: l, rest, ?_, hl, ?_,
          .inr ⟨List.cons_ne_nil _ _, .inr ⟨hidden, hfgets⟩⟩⟩)
        · rw [List.dropLast_append_cons] at hnewline
          exact fun hmem => hnewline (List.mem_append_left _ hmem)
        · rw [List.length_append, List.length_cons, List.length_cons] at hlength
          rw [List.length_cons]
          omega
  by_cases hend : '\n' ∈ piece
  · have hne := List.ne_nil_of_mem hend
    have hsplit := List.dropLast_append_getLast hne
    have hlast : piece.getLast hne = '\n' := by
      rw [← hsplit, List.mem_append] at hend
      exact (List.mem_singleton.mp (hend.resolve_left hnewline)).symm
    rw [hlast] at hsplit
    refine .inr (.inl ⟨piece.dropLast, rest, hnewline, ?_, ?_, .inl (by rw [hsplit, hfgets])⟩)
    · exact fun hmem => hnul (List.dropLast_subset piece hmem)
    · rw [← hsplit, List.length_append, List.length_singleton] at hlength
      omega
  · rcases Nat.lt_or_ge piece.length (n - 1) with hshort | hlong
    · obtain rfl : rest = [] := (hstops hend).resolve_left (Nat.ne_of_lt hshort)
      rw [List.append_nil] at happend
      subst happend
      have hfits : piece.length + 2 ≤ n := by omega
      exact .inr (.inl ⟨piece, [], hend, hnul, hfits, .inr ⟨hinput, .inl ⟨hfgets, rfl⟩⟩⟩)
    · exact .inr (.inr ⟨hend, hnul, Nat.le_antisymm hlength hlong⟩)

theorem stringAt_append {t : List Char} (hp : nul ∉ p) : stringAt (p ++ nul :: t) 0 = p := by
  have hspan : Parsing.Span (fun c => decide (c ≠ nul)) (p ++ nul :: t) p (nul :: t) := by
    refine ⟨rfl, fun c hc => decide_eq_true fun h => hp (h ▸ hc), fun c hc => ?_⟩
    obtain rfl := Option.some.inj hc
    rfl
  exact hspan.takeWhile_eq

theorem getElem_last (hne : l ≠ []) (t : List Char) :
    (p ++ l ++ t)[p.length + l.length - 1]? = l.getLast? := by
  obtain ⟨m, c, rfl⟩ := exists_last hne
  have hpos : p.length + (m ++ [c]).length - 1 = (p ++ m).length := by
    rw [List.length_append, List.length_append]
    rfl
  have hlist : p ++ (m ++ [c]) ++ t = p ++ m ++ c :: t := by
    simp only [List.append_assoc, List.cons_append, List.nil_append]
  rw [hpos, hlist, getElem_append_cons, List.getLast?_concat]

/-- A line that ends in a null character. -/
theorem readOneLine_hidden (p : List Char) (lineNumber : ℕ) {hidden : List Char} (hline : '\n' ∉ l)
    (htext : nul ∉ l) (hne : l ≠ []) (hinput : input ≠ [])
    (hfgets : fgets (tail.length - 1) input = (l ++ nul :: hidden, rest))
    (htail : l.length + 2 ≤ tail.length) :
    ∃ tail', tail'.length + l.length + 1 = tail.length ∧
      readOneLine (p ++ tail) p.length tail.length lineNumber input =
        .ok ⟨p ++ l ++ nul :: tail', rest, l.length, false⟩ := by
  have hlength : (l ++ nul :: hidden ++ [nul]).length ≤ tail.length := by
    have hle := @fgets_length_le input (tail.length - 1)
    rw [hfgets] at hle
    rw [List.length_append, List.length_singleton]
    dsimp only at hle
    omega
  have hbuffer : p ++ (l ++ nul :: hidden ++ [nul]) ++ tail.drop (l ++ nul :: hidden ++ [nul]).length =
      p ++ l ++ nul :: (hidden ++ nul :: tail.drop (l ++ nul :: hidden ++ [nul]).length) := by
    simp only [List.append_assoc, List.cons_append, List.nil_append]
  have hstring : stringAt (p ++ l ++ nul ::
      (hidden ++ nul :: tail.drop (l ++ nul :: hidden ++ [nul]).length)) p.length = l := by
    unfold stringAt
    rw [List.append_assoc, List.drop_left]
    exact stringAt_append htext
  have hlast : l.getLast? ≠ some '\n' := fun h => hline (List.mem_of_getLast? h)
  refine ⟨hidden ++ nul :: tail.drop (l ++ nul :: hidden ++ [nul]).length, ?_, ?_⟩
  · rw [List.length_append, List.length_cons, List.length_drop]
    rw [List.length_append, List.length_append, List.length_cons, List.length_singleton] at hlength ⊢
    omega
  · unfold readOneLine
    rw [if_neg hinput, hfgets]
    dsimp only
    rw [store_append hlength, hbuffer]
    dsimp only
    rw [hstring, if_neg (fun h => hne (List.length_eq_zero_iff.mp h)), getElem_last hne,
      if_neg hlast, if_pos (by omega)]

/-- A line that has room. -/
theorem readOneLine_fits (p : List Char) (lineNumber : ℕ) (h : Piece tail.length input l rest)
    (hinput : input ≠ []) :
    ∃ tail', tail'.length + l.length + 1 = tail.length ∧
      readOneLine (p ++ tail) p.length tail.length lineNumber input =
        .ok ⟨p ++ l ++ nul :: tail', rest, l.length, false⟩ := by
  have hfits := h.fits
  rcases h.read with hfgets | ⟨hne, ⟨hfgets, rfl⟩ | ⟨hidden, hfgets⟩⟩
  · have hnul : nul ∉ l ++ ['\n'] := by
      intro hmem
      rcases List.mem_append.mp hmem with hmem | hmem
      · exact h.text hmem
      · exact absurd (List.mem_singleton.mp hmem) (by decide)
    refine ⟨nul :: tail.drop (l.length + 2), ?_, ?_⟩
    · rw [List.length_cons, List.length_drop]
      omega
    · rw [readOneLine_chunk hinput hfgets hnul hfits, if_pos rfl]
  · obtain ⟨m, c, rfl⟩ := exists_last hne
    have hlength : (m ++ [c]).length = m.length + 1 := List.length_append
    have hc : c ≠ '\n' := by
      rintro rfl
      exact h.line (List.mem_append_right m (List.mem_singleton_self _))
    refine ⟨tail.drop (m.length + 2), ?_, ?_⟩
    · rw [List.length_drop]
      omega
    · rw [readOneLine_chunk hinput hfgets h.text (by omega), if_neg hc, if_pos (by omega), hlength]
      simp only [List.append_assoc, List.cons_append, List.nil_append]
  · exact readOneLine_hidden p lineNumber h.line h.text hne hinput hfgets hfits

/-- A line without room is an error. -/
theorem readOneLine_long (p : List Char) (lineNumber : ℕ) (hinput : input ≠ [])
    (hfgets : fgets (tail.length - 1) input = (l, rest)) (hline : '\n' ∉ l) (htext : nul ∉ l)
    (hlong : l.length = tail.length - 1) (htail : 2 < tail.length) :
    ∃ messages, readOneLine (p ++ tail) p.length tail.length lineNumber input =
      .error (.message messages) := by
  have hne : l ≠ [] := by
    rw [← List.length_pos_iff]
    omega
  obtain ⟨m, c, rfl⟩ := exists_last hne
  have hc : c ≠ '\n' := by
    rintro rfl
    exact hline (List.mem_append_right m (List.mem_singleton_self _))
  rw [List.length_append, List.length_singleton] at hlong
  rw [readOneLine_chunk hinput hfgets htext (by omega), if_neg hc, if_neg (by omega)]
  exact ⟨_, rfl⟩

/-! ### What is seen -/

@[simp] theorem seen_nil : seen k [] = ([], false) := by
  rw [seen]
  simp only [fgets_nil]
  rfl

/-- A text is seen as it is. -/
theorem seen_text (h : nul ∉ input) : seen k input = (input, false) := by
  fun_induction seen k input with
  | case1 k input piece hhead =>
      have hmem : nul ∈ piece := List.mem_of_mem_head? hhead
      rw [← @fgets_append input (lineSize - k - 1)] at h
      exact absurd (List.mem_append_left _ hmem) h
  | case2 k input piece rest line hhead hshort more ih =>
      have happend : piece ++ rest = input := fgets_append
      have hpiece : nul ∉ piece := fun hmem => h (happend ▸ List.mem_append_left _ hmem)
      have hrest : nul ∉ rest := fun hmem => h (happend ▸ List.mem_append_right _ hmem)
      have hmore : more = (rest, false) := ih hrest
      rw [if_neg hpiece, hmore, happend]
  | case3 => rfl

/-- Nothing more is seen from a null character on. -/
theorem seen_nul (hk : k + 2 ≤ lineSize) (hhead : input.head? = some nul) :
    seen k input = ([], true) := by
  obtain ⟨rest, rfl⟩ := List.head?_eq_some_iff.mp hhead
  obtain ⟨n, hn⟩ : ∃ n, lineSize - k - 1 = n + 1 := ⟨lineSize - k - 2, by omega⟩
  have hpiece : (fgets (lineSize - k - 1) (nul :: rest)).1.head? = some nul := by
    rw [hn, fgets, if_neg (by decide)]
    rfl
  rw [seen]
  dsimp only
  rw [if_pos hpiece]

/-- What is seen if a piece does not start with a null character. -/
theorem seen_piece {n : ℕ} (hsize : k + n = lineSize) (hfgets : fgets (n - 1) input = (p, rest))
    (hne : p ≠ []) (hhead : p.head? ≠ some nul)
    (hspan : Parsing.Span (fun c => decide (c ≠ nul ∧ c ≠ '\n')) p l m) :
    seen k input =
      ((if nul ∈ p then l ++ ['\n'] else p) ++
        (seen (if l.getLast? = some '\\' then k + (l.length - 1) else 0) rest).1,
        (seen (if l.getLast? = some '\\' then k + (l.length - 1) else 0) rest).2) := by
  have hn : lineSize - k - 1 = n - 1 := by omega
  have hshort : rest.length < input.length := by
    have happend := congrArg List.length (@fgets_append input (n - 1))
    rw [hfgets, List.length_append] at happend
    have := List.length_pos_iff.mpr hne
    dsimp only at happend
    omega
  rw [seen]
  dsimp only
  rw [hn, hfgets]
  dsimp only
  rw [if_neg hhead, dif_pos hshort, hspan.takeWhile_eq]

/-- The next line, as it is seen. -/
theorem Piece.seen {n : ℕ} (h : Piece n input l rest) (hsize : k + n = lineSize) :
    Starts (Config.seen k input).1 l
        (Config.seen (if l.getLast? = some '\\' then k + (l.length - 1) else 0) rest).1 ∧
      (Config.seen k input).2 =
        (Config.seen (if l.getLast? = some '\\' then k + (l.length - 1) else 0) rest).2 ∧
      ((Config.seen k input).1 = l → rest = []) := by
  have hall : ∀ c ∈ l, decide (c ≠ nul ∧ c ≠ '\n') = true := fun c hc =>
    decide_eq_true ⟨fun heq => h.text (heq ▸ hc), fun heq => h.line (heq ▸ hc)⟩
  have hmore : ∀ t, l ++ ['\n'] ++ t ≠ l := fun t heq => by simp at heq
  have hstart : ∀ t, l ≠ [] → (l ++ t).head? ≠ some nul := by
    intro t hne hhead
    cases l with
    | nil => exact hne rfl
    | cons c l => exact h.text (Option.some.inj hhead ▸ List.mem_cons_self)
  rcases h.read with hfgets | ⟨hne, ⟨hfgets, rfl⟩ | ⟨hidden, hfgets⟩⟩
  · have hhead : (l ++ ['\n']).head? ≠ some nul := by
      by_cases hne : l = []
      · subst hne
        decide
      · exact hstart _ hne
    have hnul : nul ∉ l ++ ['\n'] := by
      intro hmem
      rcases List.mem_append.mp hmem with hmem | hmem
      · exact h.text hmem
      · exact absurd (List.mem_singleton.mp hmem) (by decide)
    rw [seen_piece hsize hfgets (by simp) hhead ⟨rfl, hall, by rintro _ ⟨⟩; rfl⟩, if_neg hnul]
    exact ⟨⟨h.line, h.text, .inl (by simp)⟩, rfl, fun heq => absurd heq (hmore _)⟩
  · have hhead := hstart [] hne
    rw [List.append_nil] at hhead
    rw [seen_piece hsize hfgets hne hhead ⟨(List.append_nil l).symm, hall, nofun⟩, if_neg h.text,
      seen_nil]
    exact ⟨⟨h.line, h.text, .inr ⟨List.append_nil l, rfl, hne⟩⟩, rfl, fun _ => rfl⟩
  · rw [seen_piece hsize hfgets (by simp) (hstart _ hne) ⟨rfl, hall, by rintro _ ⟨⟩; rfl⟩,
      if_pos (List.mem_append_right l List.mem_cons_self)]
    exact ⟨⟨h.line, h.text, .inl (by simp)⟩, rfl, fun heq => absurd heq (hmore _)⟩

/-! ### Logical lines -/

/-- A line that is not continued. -/
theorem Starts.ended (h : Starts input l rest) (hlast : l.getLast? ≠ some '\\') :
    hasRoom k input = (k + l.length + 2 ≤ lineSize && hasRoom 0 rest) ∧
      ((input = l ∧ logicalLines input = [l]) ∨ logicalLines input = l :: logicalLines rest) := by
  have hjoins : ∀ t, Joins l t := fun t => ⟨h.line, fun hl => absurd hl hlast⟩
  rcases h.input with rfl | ⟨rfl, rfl, -⟩
  · rw [hasRoom_append (hjoins _), logicalLines_append (hjoins _)]
    refine ⟨rfl, .inr ?_⟩
    show (l ++ []) :: logicalLines rest = _
    rw [List.append_nil]
  · have hroom := hasRoom_append (k := k) (hjoins [])
    have hlines := logicalLines_append (hjoins [])
    rw [List.append_nil] at hroom hlines
    rw [hroom, hlines]
    refine ⟨(Bool.and_true _).symm, .inl ⟨rfl, ?_⟩⟩
    show [input ++ []] = _
    rw [List.append_nil]

/-- A line that is continued. -/
theorem Starts.joined (h : Starts input (m ++ ['\\']) rest) :
    hasRoom k input = (k + m.length + 1 + 2 ≤ lineSize && hasRoom (k + m.length) rest) ∧
      logicalLines input = (logicalLines rest).modifyHead (m ++ ·) := by
  have hjoins : ∀ t, Joins m ('\\' :: t) := by
    refine fun t => ⟨fun hmem => h.line (List.mem_append_left _ hmem), fun _ => ?_⟩
    exact ⟨List.cons_ne_nil _ _, fun hhead => absurd (Option.some.inj hhead) (by decide)⟩
  rcases h.input with rfl | ⟨rfl, rfl, -⟩
  · rw [List.append_assoc, List.cons_append, List.nil_append, hasRoom_append (hjoins _),
      logicalLines_append (hjoins _)]
    exact ⟨rfl, rfl⟩
  · rw [hasRoom_append (hjoins _), logicalLines_append (hjoins _)]
    refine ⟨?_, rfl⟩
    show decide (k + m.length + 1 + 2 ≤ lineSize) =
      (decide (k + m.length + 1 + 2 ≤ lineSize) && decide (k + m.length + 2 ≤ lineSize))
    rw [← Bool.decide_and]
    congr 1
    rw [eq_iff_iff]
    omega

/-! ### Reading a logical line -/

theorem readLine_error {buffer : List Char} {pos : ℕ} {fault : Fault}
    (h : readOneLine buffer pos lineLength (lineNumber + 1) input = .error fault) :
    readLine buffer pos lineLength lineNumber input = .error fault := by
  rw [readLine]
  split
  · rename_i hread
    rw [h] at hread
    rw [Except.error.inj hread]
  · rename_i hread
    rw [h] at hread
    cases hread

theorem readLine_ok {buffer : List Char} {pos : ℕ} {r : OneLine}
    (h : readOneLine buffer pos lineLength (lineNumber + 1) input = .ok r) :
    readLine buffer pos lineLength lineNumber input =
      if r.eof = false ∧ 0 < r.lengthRead ∧ r.buffer[pos + r.lengthRead - 1]? = some '\\' then
        if 2 < lineLength - (r.lengthRead - 1) then
          readLine r.buffer (pos + (r.lengthRead - 1)) (lineLength - (r.lengthRead - 1))
            (lineNumber + 1) r.input
        else .error (.message [s!"Run out of read buffer on line {lineNumber + 1}"])
      else .ok ⟨r.buffer, r.input, lineNumber + 1, r.eof⟩ := by
  rw [readLine]
  split
  · rename_i hread
    rw [h] at hread
    cases hread
  · rename_i hread
    rw [h] at hread
    obtain rfl := Except.ok.inj hread
    rfl

/-- A logical line was read, behind the `k` characters that are in the buffer. -/
structure LineRead (k : ℕ) (input line : List Char) (r : ReadLine) : Prop where
  stops : (seen k input).2 = (seen 0 r.input).2
  room : hasRoom k (seen k input).1 = (r.eof || hasRoom 0 (seen 0 r.input).1)
  lines : (r.input = [] ∧ logicalLines (seen k input).1 = [line]) ∨
    (r.eof = false ∧ logicalLines (seen k input).1 = line :: logicalLines (seen 0 r.input).1)

theorem readLine_eof (p : List Char) (lineNumber : ℕ) (htail : 0 < tail.length) :
    readLine (p ++ tail) p.length tail.length lineNumber [] =
      .ok ⟨p ++ nul :: tail.drop 1, [], lineNumber + 1, true⟩ := by
  rw [readLine_ok (readOneLine_eof htail), if_neg (fun h => nomatch h.1)]
  simp only [List.append_assoc, List.cons_append, List.nil_append]

/-- A line that is continued goes on at the place of its backslash. -/
theorem readLine_joined (p : List Char) (lineNumber : ℕ)
    (h : Piece tail.length input (m ++ ['\\']) rest) (hinput : input ≠ []) :
    ∃ tail', tail'.length + m.length = tail.length ∧
      readLine (p ++ tail) p.length tail.length lineNumber input =
        readLine (p ++ m ++ tail') (p ++ m).length tail'.length (lineNumber + 1) rest := by
  have hlength : (m ++ ['\\']).length = m.length + 1 := List.length_append
  have hfits : m.length + 1 + 2 ≤ tail.length := hlength ▸ h.fits
  obtain ⟨t, ht, hread⟩ := readOneLine_fits p (lineNumber + 1) h hinput
  have hbuffer : p ++ (m ++ ['\\']) ++ nul :: t = p ++ m ++ '\\' :: nul :: t := by
    simp only [List.append_assoc, List.cons_append, List.nil_append]
  have hbackslash : (p ++ (m ++ ['\\']) ++ nul :: t)[p.length + (m.length + 1) - 1]? =
      some '\\' := by
    rw [← hlength, getElem_last (List.append_ne_nil_of_right_ne_nil _ (List.cons_ne_nil _ _)),
      List.getLast?_concat]
  have hpos : p.length + (m.length + 1 - 1) = (p ++ m).length := List.length_append.symm
  have hleft : tail.length - (m.length + 1 - 1) = ('\\' :: nul :: t).length := by
    rw [List.length_cons, List.length_cons]
    omega
  refine ⟨'\\' :: nul :: t, ?_, ?_⟩
  · rw [← hleft]
    omega
  · rw [hlength] at hread
    rw [readLine_ok hread]
    dsimp only
    rw [if_pos ⟨rfl, Nat.succ_pos _, hbackslash⟩, if_pos (by omega), hbuffer, hpos, hleft]

/-- A line that is not continued. -/
theorem readLine_ended (p : List Char) (lineNumber : ℕ) (h : Piece tail.length input l rest)
    (hinput : input ≠ []) (hlast : l.getLast? ≠ some '\\') :
    ∃ t, readLine (p ++ tail) p.length tail.length lineNumber input =
      .ok ⟨p ++ l ++ nul :: t, rest, lineNumber + 1, false⟩ := by
  obtain ⟨t, -, hread⟩ := readOneLine_fits p (lineNumber + 1) h hinput
  refine ⟨t, ?_⟩
  rw [readLine_ok hread, if_neg]
  rintro ⟨-, hpos, hbackslash⟩
  rw [getElem_last (List.length_pos_iff.mp hpos)] at hbackslash
  exact hlast hbackslash

theorem Piece.shorter {n : ℕ} (h : Piece n input l rest) (hinput : input ≠ []) :
    rest.length < input.length := by
  have happend := congrArg List.length (@fgets_append input (n - 1))
  have hpos := List.length_pos_iff.mpr hinput
  rcases h.read with hfgets | ⟨hne, ⟨hfgets, rfl⟩ | ⟨hidden, hfgets⟩⟩
  · rw [hfgets] at happend
    simp only [List.length_append, List.length_singleton] at happend
    omega
  · exact hpos
  · rw [hfgets] at happend
    simp only [List.length_append, List.length_cons] at happend
    omega

/-- A line that goes on behind `m` is read with it. -/
theorem LineRead.joined {k k' : ℕ} {rest line : List Char} {r : ReadLine}
    (hline : LineRead k' rest line r) (hstops : (seen k input).2 = (seen k' rest).2)
    (hroom : hasRoom k (seen k input).1 = hasRoom k' (seen k' rest).1)
    (hlines : logicalLines (seen k input).1 =
      (logicalLines (seen k' rest).1).modifyHead (m ++ ·)) : LineRead k input (m ++ line) r := by
  refine ⟨hstops.trans hline.stops, hroom.trans hline.room, ?_⟩
  rw [hlines]
  rcases hline.lines with ⟨hend, hlines⟩ | ⟨heof, hlines⟩
  · exact .inl ⟨hend, congrArg (List.modifyHead (m ++ ·)) hlines⟩
  · exact .inr ⟨heof, congrArg (List.modifyHead (m ++ ·)) hlines⟩

/-- A piece that fills the buffer without an end has no room. -/
theorem hasRoom_seen_long (hsize : p.length + tail.length = lineSize) (htail : 2 < tail.length)
    (hline : '\n' ∉ (fgets (tail.length - 1) input).1)
    (htext : nul ∉ (fgets (tail.length - 1) input).1)
    (hlong : (fgets (tail.length - 1) input).1.length = tail.length - 1) :
    hasRoom p.length (seen p.length input).1 = false := by
  have hne : (fgets (tail.length - 1) input).1 ≠ [] := by
    rw [← List.length_pos_iff]
    omega
  have hall : Parsing.Span (fun c => decide (c ≠ nul ∧ c ≠ '\n'))
      (fgets (tail.length - 1) input).1 (fgets (tail.length - 1) input).1 [] :=
    ⟨(List.append_nil _).symm, fun c hc => decide_eq_true
      ⟨fun heq => htext (heq ▸ hc), fun heq => hline (heq ▸ hc)⟩, nofun⟩
  rw [seen_piece hsize rfl hne (fun hhead => htext (List.mem_of_mem_head? hhead)) hall,
    if_neg htext]
  exact hasRoom_long hline (by omega)

/-- A logical line is read whole, or it has no room, or a null character is found where one of its
pieces starts. -/
theorem readLine_seen (hp : nul ∉ p) (hsize : p.length + tail.length = lineSize)
    (htail : 2 < tail.length) :
    (∃ messages, readLine (p ++ tail) p.length tail.length lineNumber input =
      .error (.message messages) ∧ hasRoom p.length (seen p.length input).1 = false) ∨
    (readLine (p ++ tail) p.length tail.length lineNumber input = .error .assertion ∧
      (seen p.length input).2 = true ∧ hasRoom p.length (seen p.length input).1 = true ∧
      ∃ line, logicalLines (seen p.length input).1 = [line]) ∨
    ∃ r line, readLine (p ++ tail) p.length tail.length lineNumber input = .ok r ∧
      stringAt r.buffer 0 = p ++ line ∧ LineRead p.length input line r := by
  induction hn : input.length using Nat.strongRecOn generalizing input p tail lineNumber with
  | _ n ih =>
      have hempty : hasRoom p.length [] = true := decide_eq_true (by omega)
      by_cases hinput : input = []
      · subst hinput
        refine .inr (.inr ⟨_, [], readLine_eof p lineNumber (by omega), ?_, ?_⟩)
        · rw [List.append_nil]
          exact stringAt_append hp
        · refine ⟨by simp, ?_, ?_⟩
          · rw [seen_nil]
            exact hempty
          · rw [seen_nil]
            exact .inl ⟨rfl, rfl⟩
      rcases exists_piece htail hinput with hhead | ⟨l, rest, hpiece⟩ | ⟨hline, htext, hlong⟩
      · have hseen : seen p.length input = ([], true) := seen_nul (by omega) hhead
        obtain ⟨rest, rfl⟩ := List.head?_eq_some_iff.mp hhead
        have hplaced : Placed (p ++ tail) p.length tail.length :=
          ⟨by rw [List.length_append, hsize], hsize, htail⟩
        rw [hseen]
        exact .inr (.inl ⟨readLine_error (readOneLine_nul hplaced), rfl, hempty, [], rfl⟩)
      · obtain ⟨hstarts, hstops, hend⟩ := hpiece.seen hsize
        by_cases hlast : l.getLast? = some '\\'
        · -- The line is continued behind what is in the buffer then.
          obtain ⟨m, rfl⟩ := List.getLast?_eq_some_iff.mp hlast
          have hlength : (m ++ ['\\']).length = m.length + 1 := List.length_append
          have happend : (p ++ m).length = p.length + m.length := List.length_append
          have hfits := hpiece.fits
          rw [if_pos hlast, hlength, Nat.add_sub_cancel, ← happend] at hstarts hstops
          obtain ⟨hroom, hlines⟩ := hstarts.joined (k := p.length)
          rw [decide_eq_true (by omega), Bool.true_and, ← happend] at hroom
          obtain ⟨tail', htail', hread⟩ := readLine_joined p lineNumber hpiece hinput
          have hnul : nul ∉ p ++ m := fun hmem => (List.mem_append.mp hmem).elim hp
            fun hmem => hpiece.text (List.mem_append_left _ hmem)
          rw [hread]
          have hsize' : (p ++ m).length + tail'.length = lineSize := by omega
          rcases ih rest.length (hn ▸ hpiece.shorter hinput) hnul hsize' (by omega) rfl with
            ⟨messages, hmore, hnone⟩ | ⟨hmore, hstop, henough, line, hone⟩ |
              ⟨r, line, hmore, hstring, hline⟩
          · exact .inl ⟨messages, hmore, hroom.trans hnone⟩
          · refine .inr (.inl ⟨hmore, hstops.trans hstop, hroom.trans henough, m ++ line, ?_⟩)
            rw [hlines, hone]
            rfl
          · refine .inr (.inr ⟨r, m ++ line, hmore, ?_, ?_⟩)
            · rw [hstring, List.append_assoc]
            · exact hline.joined hstops hroom hlines
        · have hfits := hpiece.fits
          rw [if_neg hlast] at hstarts hstops
          obtain ⟨hroom, hlines⟩ := hstarts.ended (k := p.length) hlast
          obtain ⟨t, hread⟩ := readLine_ended p lineNumber hpiece hinput hlast
          have hnul : nul ∉ p ++ l := fun hmem => (List.mem_append.mp hmem).elim hp hpiece.text
          refine .inr (.inr ⟨_, l, hread, stringAt_append hnul, hstops, ?_, ?_⟩)
          · rw [hroom, decide_eq_true (by omega)]
            rfl
          · exact hlines.imp (fun h => ⟨hend h.1, h.2⟩) fun h => ⟨rfl, h⟩
      · obtain ⟨messages, hread⟩ := readOneLine_long p (lineNumber + 1) hinput rfl hline htext hlong
          htail
        exact .inl ⟨messages, readLine_error hread,
          hasRoom_seen_long hsize htail hline htext hlong⟩

end text

end Mbf.Config
