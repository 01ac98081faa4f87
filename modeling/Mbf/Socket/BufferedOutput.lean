import Mathlib.Data.List.Infix
import Mbf.Socket.BufferedFile

/-! # Buffered output to a socket

The writers of `buffered_file.c` collect what they are given in a buffer.  What the calls of
`write` return is up to the kernel: each of them fails, or takes some of the bytes that it is
offered, perhaps none.  The kernel is here the results of these calls one after the other.

`Sound` says what holds between the calls: until there is an error, what the kernel has taken and
what is in the buffer are together what the writers have been given. -/

namespace Mbf.Socket

/-- What the calls of `write` return, where there is no result if the call fails. -/
abbrev Kernel := ℕ → Option ℕ

/-- The fields of `struct buffered_file` that the writers use, with the number of calls of `write`
and the bytes that these have taken. -/
structure OutputFile where
  error : Bool
  outLength : ℕ
  outBufSize : ℕ
  outBuf : List Byte
  writes : ℕ
  sent : List Byte

namespace OutputFile

/-- `create_buffered_file`, with the buffer as `malloc` has left it. -/
def createBufferedFile (outBuf : List Byte) : OutputFile where
  error := false
  outLength := 0
  outBufSize := outBuf.length
  outBuf
  writes := 0
  sent := []

/-- `memcpy(buf + offset, data, n)`, where `n` is the length of `data`. -/
def memcpy (buf : List Byte) (offset : ℕ) (data : List Byte) : List Byte :=
  buf.take offset ++ data ++ buf.drop (offset + data.length)

/-- `vsnprintf(buf + offset, size, ..)`, where the formatted text is `text`.  It stores what there
is room for, with its terminator; a length that is no `int` is an error, which is `-1`. -/
def vsnprintf (buf : List Byte) (offset size : ℕ) (text : List Byte) : List Byte × ℕ :=
  (if size = 0 then buf else memcpy buf offset (text.take (size - 1) ++ [0]),
    if text.length < 2 ^ 31 then text.length else 2 ^ 64 - 1)

/-! ### The writers -/

/-- A turn of the loop of `send_entire_buffer`: what is left, and the file. -/
def writeSome (kernel : Kernel) (f : OutputFile) (buffer : List Byte) : List Byte × OutputFile :=
  match kernel f.writes with
  | none => (buffer, { f with error := true, writes := f.writes + 1 })
  | some written =>
      (buffer.drop written,
        { f with writes := f.writes + 1, sent := f.sent ++ buffer.take written })

/-- `send_entire_buffer`. -/
def sendEntireBuffer (kernel : Kernel) (fuel : ℕ) (f : OutputFile) (buffer : List Byte) :
    Option OutputFile :=
  if f.error || buffer.length = 0 then some f
  else
    match fuel with
    | 0 => none
    | fuel + 1 =>
        let (buffer, f) := writeSome kernel f buffer
        sendEntireBuffer kernel fuel f buffer

/-- The bytes in the output buffer. -/
def buffered (f : OutputFile) : List Byte := f.outBuf.take f.outLength

/-- `flush_out_buf`, which returns whether there is no error. -/
def flushOutBuf (kernel : Kernel) (fuel : ℕ) (f : OutputFile) : Option OutputFile :=
  (sendEntireBuffer kernel fuel f f.buffered).map fun f => { f with outLength := 0 }

/-- `write_string`. -/
def writeString (kernel : Kernel) (fuel : ℕ) (f : OutputFile) (string : List Byte) :
    Option OutputFile :=
  if f.error || string.length = 0 then some f
  else
    match fuel with
    | 0 => none
    | fuel + 1 =>
        let toWrite := min (f.outBufSize - f.outLength) string.length
        let f := { f with
          outBuf := memcpy f.outBuf f.outLength (string.take toWrite)
          outLength := f.outLength + toWrite }
        if f.outBufSize ≤ f.outLength then
          (flushOutBuf kernel fuel f).bind fun f =>
            writeString kernel fuel f (string.drop toWrite)
        else writeString kernel fuel f (string.drop toWrite)

/-- `write_formatted_string`. -/
def writeFormattedString (kernel : Kernel) (fuel : ℕ) (f : OutputFile) (text : List Byte) :
    Option OutputFile :=
  if f.error then some f
  else
    let length := f.outBufSize - f.outLength
    let (outBuf, written) := vsnprintf f.outBuf f.outLength length text
    let f := { f with outBuf }
    if written < length then some { f with outLength := f.outLength + written }
    else
      (flushOutBuf kernel fuel f).map fun f =>
        if f.error then f
        else
          let (outBuf, written) := vsnprintf f.outBuf 0 f.outBufSize text
          { f with outBuf, outLength := written, error := !(written < f.outBufSize : Bool) }

/-- `write_block`. -/
def writeBlock (kernel : Kernel) (fuel : ℕ) (f : OutputFile) (buffer : List Byte) :
    Option OutputFile :=
  (flushOutBuf kernel fuel f).bind fun f => sendEntireBuffer kernel fuel f buffer

/-- `write_char`. -/
def writeChar (kernel : Kernel) (fuel : ℕ) (f : OutputFile) (ch : Byte) : Option OutputFile :=
  if f.error then some f
  else
    let f := { f with outBuf := memcpy f.outBuf f.outLength [ch], outLength := f.outLength + 1 }
    if f.outBufSize ≤ f.outLength then flushOutBuf kernel fuel f else some f

/-! ### Calls -/

/-- A call of one of the writers. -/
inductive WriteCall where
  | string (s : List Byte)
  | formatted (text : List Byte)
  | char (ch : Byte)
  | block (buffer : List Byte)
  | flush

/-- The bytes that a call is to write. -/
def WriteCall.payload : WriteCall → List Byte
  | .string s => s
  | .formatted text => text
  | .char ch => [ch]
  | .block buffer => buffer
  | .flush => []

/-- The file after a call.  Each of the writers returns `!file->error`. -/
def run (kernel : Kernel) (fuel : ℕ) (f : OutputFile) : WriteCall → Option OutputFile
  | .string s => writeString kernel fuel f s
  | .formatted text => writeFormattedString kernel fuel f text
  | .char ch => writeChar kernel fuel f ch
  | .block buffer => writeBlock kernel fuel f buffer
  | .flush => flushOutBuf kernel fuel f

/-- What the calls return, and the file after them. -/
def calls (kernel : Kernel) (fuel : ℕ) : OutputFile → List WriteCall → Option (List Bool × OutputFile)
  | f, [] => some ([], f)
  | f, c :: cs => do
      let f ← f.run kernel fuel c
      let (oks, last) ← f.calls kernel fuel cs
      return ((!f.error) :: oks, last)

/-- The payloads of the calls, one after the other. -/
def payloads (cs : List WriteCall) : List Byte := cs.flatMap WriteCall.payload

/-! ### The buffer -/

theorem memcpy_length {buf data : List Byte} {offset : ℕ}
    (h : offset + data.length ≤ buf.length) : (memcpy buf offset data).length = buf.length := by
  unfold memcpy
  simp only [List.length_append, List.length_take, List.length_drop]
  omega

/-- The bytes up to the end of what has been stored. -/
theorem memcpy_take {buf data : List Byte} {offset : ℕ} (h : offset ≤ buf.length) {n : ℕ}
    (hn : n ≤ data.length) :
    (memcpy buf offset data).take (offset + n) = buf.take offset ++ data.take n := by
  have hlength : (buf.take offset).length = offset := by
    rw [List.length_take]
    omega
  unfold memcpy
  rw [List.append_assoc, List.take_append, hlength, Nat.add_sub_cancel_left,
    List.take_of_length_le (by omega), List.take_append_of_le_length hn]

theorem vsnprintf_length {buf text : List Byte} {offset size : ℕ} (h : offset + size ≤ buf.length) :
    (vsnprintf buf offset size text).1.length = buf.length := by
  unfold vsnprintf
  dsimp only
  split_ifs with hsize
  · rfl
  · refine memcpy_length ?_
    simp only [List.length_append, List.length_take, List.length_singleton]
    omega

/-- A text that is longer than an `int` is too long for any buffer. -/
theorem vsnprintf_lt {buf text : List Byte} {offset size : ℕ} (hsize : size < 2 ^ 64)
    (h : (vsnprintf buf offset size text).2 < size) :
    (vsnprintf buf offset size text).2 = text.length ∧ text.length < size := by
  unfold vsnprintf at h ⊢
  dsimp only at h ⊢
  split_ifs at h ⊢ with hint
  · exact ⟨rfl, h⟩
  · omega

/-- What was in the buffer before stays there. -/
theorem vsnprintf_take {buf text : List Byte} {offset size : ℕ} (h : offset ≤ buf.length) :
    (vsnprintf buf offset size text).1.take offset = buf.take offset := by
  unfold vsnprintf
  dsimp only
  split_ifs with hsize
  · rfl
  · have htake := @memcpy_take buf (text.take (size - 1) ++ [0]) offset h 0 (Nat.zero_le _)
    rwa [Nat.add_zero, List.take_zero, List.append_nil] at htake

/-- A text that fits follows what was in the buffer before. -/
theorem vsnprintf_take_add {buf text : List Byte} {offset size : ℕ} (h : offset ≤ buf.length)
    (htext : text.length < size) :
    (vsnprintf buf offset size text).1.take (offset + text.length) = buf.take offset ++ text := by
  unfold vsnprintf
  dsimp only
  have hall : text.take (size - 1) = text := List.take_of_length_le (by omega)
  rw [if_neg (by omega), hall, memcpy_take h (by simp), List.take_left]

/-! ### Sending -/

/-- A call of `write` that has failed is the last one, and is an error. -/
def LastFails (kernel : Kernel) (f : OutputFile) : Prop :=
  ∀ n < f.writes, kernel n = none → f.error = true ∧ n + 1 = f.writes

/-- How a buffer has been sent: nothing else of the file changes, and if there is no error then the
kernel has taken all of it. -/
structure Sent (kernel : Kernel) (buffer : List Byte) (f f' : OutputFile) : Prop where
  frame : f' = { f with error := f'.error, writes := f'.writes, sent := f'.sent }
  stopped : f.error = true → f' = f
  whole : f'.error = false → f.error = false ∧ f'.sent = f.sent ++ buffer
  part : ∃ taken, taken <+: buffer ∧ f'.sent = f.sent ++ taken
  lastFails : LastFails kernel f → LastFails kernel f'

/-- What a call of `write` has not taken is left, and nothing else of the file changes. -/
theorem writeSome_sent {kernel : Kernel} {f f' : OutputFile} {buffer rest : List Byte}
    (h : writeSome kernel f buffer = (rest, f')) (herror : f.error = false) :
    f' = { f with error := f'.error, writes := f'.writes, sent := f'.sent } ∧
      (∃ taken, buffer = taken ++ rest ∧ f'.sent = f.sent ++ taken) ∧
      (LastFails kernel f → LastFails kernel f') := by
  unfold writeSome at h
  cases hkernel : kernel f.writes with
  | none =>
      rw [hkernel] at h
      cases h
      refine ⟨rfl, ⟨[], rfl, (List.append_nil _).symm⟩, fun hlast n hn hfails => ⟨rfl, ?_⟩⟩
      rcases Nat.lt_succ_iff_lt_or_eq.mp hn with hlt | rfl
      · exact absurd (hlast n hlt hfails).1 (by simp [herror])
      · rfl
  | some written =>
      rw [hkernel] at h
      cases h
      refine ⟨rfl, ⟨buffer.take written, (List.take_append_drop _ _).symm, rfl⟩,
        fun hlast n hn hfails => ?_⟩
      rcases Nat.lt_succ_iff_lt_or_eq.mp hn with hlt | rfl
      · exact absurd (hlast n hlt hfails).1 (by simp [herror])
      · exact absurd (hkernel.symm.trans hfails) (Option.some_ne_none _)

/-- There is nothing to send, or there has been an error. -/
theorem Sent.stop {kernel : Kernel} {f : OutputFile} {buffer : List Byte}
    (h : (f.error || buffer.length = 0) = true) : Sent kernel buffer f f := by
  refine ⟨rfl, fun _ => rfl, fun herror => ⟨herror, ?_⟩,
    ⟨[], List.nil_prefix, (List.append_nil _).symm⟩, id⟩
  rw [herror, Bool.false_or, decide_eq_true_iff, List.length_eq_zero_iff] at h
  rw [h, List.append_nil]

theorem sendEntireBuffer_sent {kernel : Kernel} {fuel : ℕ} {f f' : OutputFile} {buffer : List Byte}
    (h : sendEntireBuffer kernel fuel f buffer = some f') : Sent kernel buffer f f' := by
  induction fuel generalizing f buffer with
  | zero =>
      rw [sendEntireBuffer] at h
      split_ifs at h with hstop
      obtain rfl := Option.some.inj h
      exact .stop hstop
  | succ fuel ih =>
      rw [sendEntireBuffer] at h
      split_ifs at h with hstop
      · obtain rfl := Option.some.inj h
        exact .stop hstop
      · obtain ⟨herror, _⟩ : f.error = false ∧ buffer ≠ [] := by simpa using hstop
        cases hsome : writeSome kernel f buffer with
        | mk rest f₁ =>
            rw [hsome] at h
            obtain ⟨hframe, ⟨taken, hbuffer, hsent⟩, hlast⟩ := writeSome_sent hsome herror
            obtain ⟨hframe', _, hwhole, ⟨more, hmore, hsent'⟩, hlast'⟩ := ih h
            refine ⟨?_, ?_, fun herror' => ⟨herror, ?_⟩, ⟨taken ++ more, ?_, ?_⟩, hlast' ∘ hlast⟩
            · rw [hframe', hframe]
            · intro htrue
              rw [herror] at htrue
              cases htrue
            · rw [(hwhole herror').2, hsent, hbuffer, List.append_assoc]
            · rw [hbuffer]
              exact (List.prefix_append_right_inj taken).mpr hmore
            · rw [hsent', hsent, List.append_assoc]

/-! ### What holds of a file -/

section

variable {kernel : Kernel} {size fuel : ℕ} {all : List Byte} {f f' : OutputFile}

/-- What holds of a file, where `all` is what the writers have been given.  In a write the buffer
may be full. -/
structure Holds (kernel : Kernel) (size : ℕ) (all : List Byte) (f : OutputFile) : Prop where
  outBufSize : f.outBufSize = size
  outBuf : f.outBuf.length = size
  outLength : f.error = false → f.outLength ≤ size
  whole : f.error = false → f.sent ++ f.buffered = all
  ordered : f.sent <+: all
  lastFails : LastFails kernel f

/-- What holds between the calls: there is room for another character. -/
structure Sound (kernel : Kernel) (size : ℕ) (all : List Byte) (f : OutputFile) : Prop
    extends Holds kernel size all f where
  room : f.error = false → f.outLength < size

/-- After an error nothing that is written matters. -/
theorem Sound.failed (h : Sound kernel size all f) (herror : f.error = true) (payload : List Byte) :
    Sound kernel size (all ++ payload) f where
  outBufSize := h.outBufSize
  outBuf := h.outBuf
  outLength := h.outLength
  whole hok := by
    rw [herror] at hok
    cases hok
  ordered := h.ordered.trans (List.prefix_append _ _)
  lastFails := h.lastFails
  room := h.room

/-- There is nothing to write, or there has been an error. -/
theorem Sound.stop (h : Sound kernel size all f) {string : List Byte}
    (hstop : (f.error || string.length = 0) = true) : Sound kernel size (all ++ string) f := by
  cases herror : f.error with
  | true => exact h.failed herror string
  | false =>
      rw [herror, Bool.false_or, decide_eq_true_iff, List.length_eq_zero_iff] at hstop
      rw [hstop, List.append_nil]
      exact h

/-- Storing bytes for which there is room. -/
theorem Sound.store (h : Sound kernel size all f) (herror : f.error = false) {data : List Byte}
    {n : ℕ} (hn : data.length = n) (hfits : f.outLength + n ≤ size) :
    Holds kernel size (all ++ data)
      { f with outBuf := memcpy f.outBuf f.outLength data, outLength := f.outLength + n } where
  outBufSize := h.outBufSize
  outBuf := by
    rw [← h.outBuf]
    exact memcpy_length (by rw [h.outBuf, hn]; exact hfits)
  outLength _ := hfits
  whole _ := by
    have hbuf := h.outBuf
    change f.sent ++ (memcpy f.outBuf f.outLength data).take (f.outLength + n) = all ++ data
    rw [← hn, memcpy_take (by omega) le_rfl, List.take_length, ← List.append_assoc]
    exact congrArg (· ++ data) (h.whole herror)
  ordered := h.ordered.trans (List.prefix_append _ _)
  lastFails := h.lastFails

/-- A flush empties the buffer. -/
theorem flushOutBuf_sound (hpos : 0 < size) (h : Holds kernel size all f)
    (hflush : flushOutBuf kernel fuel f = some f') :
    Sound kernel size all f' ∧ f'.outLength = 0 := by
  obtain ⟨f₁, hsend, rfl⟩ := Option.map_eq_some_iff.mp hflush
  obtain ⟨hframe, hstopped, hwhole, ⟨taken, htaken, hsent⟩, hlast⟩ := sendEntireBuffer_sent hsend
  refine ⟨⟨⟨?_, ?_, fun _ => Nat.zero_le _, fun herror => ?_, ?_, hlast h.lastFails⟩,
    fun _ => hpos⟩, rfl⟩
  · rw [hframe]
    exact h.outBufSize
  · rw [hframe]
    exact h.outBuf
  · obtain ⟨hok, hall⟩ := hwhole herror
    change f₁.sent ++ [] = all
    rw [List.append_nil, hall]
    exact h.whole hok
  · change f₁.sent <+: all
    cases herror : f.error with
    | true =>
        rw [hstopped herror]
        exact h.ordered
    | false =>
        rw [hsent, ← h.whole herror]
        exact (List.prefix_append_right_inj _).mpr htaken

theorem writeBlock_sound (hpos : 0 < size) (h : Sound kernel size all f) {buffer : List Byte}
    (hwrite : writeBlock kernel fuel f buffer = some f') :
    Sound kernel size (all ++ buffer) f' := by
  obtain ⟨f₁, hflush, hsend⟩ := Option.bind_eq_some_iff.mp hwrite
  obtain ⟨hsound, hempty⟩ := flushOutBuf_sound hpos h.toHolds hflush
  obtain ⟨hframe, hstopped, hwhole, ⟨taken, htaken, hsent⟩, hlast⟩ := sendEntireBuffer_sent hsend
  have hlength : f'.outLength = 0 := by
    rw [hframe]
    exact hempty
  have hbuffered : ∀ g : OutputFile, g.outLength = 0 → g.buffered = [] := by
    intro g hg
    rw [buffered, hg, List.take_zero]
  refine ⟨⟨?_, ?_, fun _ => by omega, fun herror => ?_, ?_, hlast hsound.lastFails⟩,
    fun _ => by omega⟩
  · rw [hframe]
    exact hsound.outBufSize
  · rw [hframe]
    exact hsound.outBuf
  · obtain ⟨hok, hall⟩ := hwhole herror
    have hbefore := hsound.whole hok
    rw [hbuffered _ hempty, List.append_nil] at hbefore
    rw [hbuffered _ hlength, List.append_nil, hall, hbefore]
  · cases herror : f₁.error with
    | true =>
        rw [hstopped herror]
        exact hsound.ordered.trans (List.prefix_append _ _)
    | false =>
        have hbefore := hsound.whole herror
        rw [hbuffered _ hempty, List.append_nil] at hbefore
        rw [hsent, hbefore]
        exact (List.prefix_append_right_inj _).mpr htaken

theorem writeChar_sound (hpos : 0 < size) (h : Sound kernel size all f) {ch : Byte}
    (hwrite : writeChar kernel fuel f ch = some f') : Sound kernel size (all ++ [ch]) f' := by
  unfold writeChar at hwrite
  split_ifs at hwrite with herror
  · obtain rfl := Option.some.inj hwrite
    exact h.failed herror _
  · have hroom := h.room (by simpa using herror)
    have hstore := h.store (by simpa using herror) (rfl : [ch].length = 1) hroom
    dsimp only at hwrite
    split_ifs at hwrite with hfull
    · exact (flushOutBuf_sound hpos hstore hwrite).1
    · obtain rfl := Option.some.inj hwrite
      refine ⟨hstore, fun _ => ?_⟩
      rw [h.outBufSize] at hfull
      dsimp only
      omega

theorem writeString_sound (hpos : 0 < size) (h : Sound kernel size all f) {string : List Byte}
    (hwrite : writeString kernel fuel f string = some f') :
    Sound kernel size (all ++ string) f' := by
  induction fuel generalizing f string all with
  | zero =>
      rw [writeString] at hwrite
      split_ifs at hwrite with hstop
      obtain rfl := Option.some.inj hwrite
      exact h.stop hstop
  | succ fuel ih =>
      rw [writeString] at hwrite
      split_ifs at hwrite with hstop
      · obtain rfl := Option.some.inj hwrite
        exact h.stop hstop
      · obtain ⟨herror, _⟩ : f.error = false ∧ string ≠ [] := by simpa using hstop
        dsimp only at hwrite
        have hsize := h.outBufSize
        have hroom := h.room herror
        generalize hn : min (f.outBufSize - f.outLength) string.length = n at hwrite
        have hstore := @Sound.store _ _ _ _ h herror (string.take n) n
          (by rw [List.length_take]; omega) (by omega)
        have hsplit : all ++ string = (all ++ string.take n) ++ string.drop n := by
          rw [List.append_assoc, List.take_append_drop]
        rw [hsplit]
        split_ifs at hwrite with hfull
        · obtain ⟨f₁, hflush, hrest⟩ := Option.bind_eq_some_iff.mp hwrite
          exact ih (flushOutBuf_sound hpos hstore hflush).1 hrest
        · exact ih ⟨hstore, fun _ => by dsimp only; omega⟩ hwrite

/-- What a first attempt to format a text stores is behind the end of the buffered bytes. -/
theorem Sound.attempt (h : Sound kernel size all f) (herror : f.error = false)
    (text : List Byte) :
    Holds kernel size all { f with
      outBuf := (vsnprintf f.outBuf f.outLength (f.outBufSize - f.outLength) text).1 } := by
  have hbuf := h.outBuf
  have hbufSize := h.outBufSize
  have hroom := h.room herror
  have hlength := @vsnprintf_length f.outBuf text f.outLength (f.outBufSize - f.outLength) (by omega)
  have htake := @vsnprintf_take f.outBuf text f.outLength (f.outBufSize - f.outLength) (by omega)
  refine ⟨hbufSize, hlength.trans hbuf, h.outLength, fun _ => ?_, h.ordered, h.lastFails⟩
  rw [← h.whole herror]
  exact congrArg (f.sent ++ ·) htake

/-- A text is formatted into the empty buffer; if it does not fit that is an error. -/
theorem Sound.format (hsize : size < 2 ^ 64) (h : Sound kernel size all f)
    (herror : f.error = false) (hempty : f.outLength = 0) (text : List Byte) :
    Sound kernel size (all ++ text) { f with
      outBuf := (vsnprintf f.outBuf 0 f.outBufSize text).1
      outLength := (vsnprintf f.outBuf 0 f.outBufSize text).2
      error := !((vsnprintf f.outBuf 0 f.outBufSize text).2 < f.outBufSize : Bool) } := by
  have hbuf := h.outBuf
  have hbufSize := h.outBufSize
  have hlength := @vsnprintf_length f.outBuf text 0 f.outBufSize (by omega)
  have hsent : f.sent = all := by
    have hwhole := h.whole herror
    rwa [buffered, hempty, List.take_zero, List.append_nil] at hwhole
  by_cases hfits : (vsnprintf f.outBuf 0 f.outBufSize text).2 < f.outBufSize
  · obtain ⟨hwritten, htext⟩ := vsnprintf_lt (by omega) hfits
    refine ⟨⟨hbufSize, hlength.trans hbuf, fun _ => ?_, fun _ => ?_,
      h.ordered.trans (List.prefix_append _ _), ?_⟩, fun _ => ?_⟩
    · dsimp only
      omega
    · have htake := @vsnprintf_take_add f.outBuf text 0 _ (Nat.zero_le _) htext
      rw [Nat.zero_add, ← hwritten, List.take_zero, List.nil_append] at htake
      exact (congrArg (f.sent ++ ·) htake).trans (congrArg (· ++ text) hsent)
    · intro n hn hfails
      exact absurd (h.lastFails n hn hfails).1 (by simp [herror])
    · dsimp only
      omega
  · refine ⟨⟨hbufSize, hlength.trans hbuf, fun hok => ?_, fun hok => ?_,
      h.ordered.trans (List.prefix_append _ _), ?_⟩, fun hok => ?_⟩
    · simp [hfits] at hok
    · simp [hfits] at hok
    · intro n hn hfails
      exact absurd (h.lastFails n hn hfails).1 (by simp [herror])
    · simp [hfits] at hok

/-- A formatted text is stored if it fits, and else once the buffer has been flushed. -/
theorem writeFormattedString_sound (hpos : 0 < size) (hsize : size < 2 ^ 64)
    (h : Sound kernel size all f) {text : List Byte}
    (hwrite : writeFormattedString kernel fuel f text = some f') :
    Sound kernel size (all ++ text) f' := by
  unfold writeFormattedString at hwrite
  split_ifs at hwrite with herror
  · obtain rfl := Option.some.inj hwrite
    exact h.failed herror text
  · have herror : f.error = false := by simpa using herror
    have hbuf := h.outBuf
    have hroom := h.room herror
    have hattempt := h.attempt herror text
    dsimp only at hwrite
    split_ifs at hwrite with hfits
    · obtain rfl := Option.some.inj hwrite
      obtain ⟨hwritten, htext⟩ := vsnprintf_lt (by rw [h.outBufSize]; omega) hfits
      rw [hwritten]
      have hless := htext
      rw [h.outBufSize] at hless
      refine ⟨⟨h.outBufSize, hattempt.outBuf, fun _ => ?_, fun _ => ?_,
        h.ordered.trans (List.prefix_append _ _), h.lastFails⟩, fun _ => ?_⟩
      · dsimp only
        omega
      · change f.sent ++ (vsnprintf _ _ _ text).1.take (f.outLength + text.length) = all ++ text
        rw [vsnprintf_take_add (by omega) htext, ← List.append_assoc]
        exact congrArg (· ++ text) (h.whole herror)
      · dsimp only
        omega
    · obtain ⟨f₁, hflush, rfl⟩ := Option.map_eq_some_iff.mp hwrite
      obtain ⟨hflushed, hempty⟩ := flushOutBuf_sound hpos (h.attempt herror text) hflush
      split_ifs with herror₁
      · exact hflushed.failed herror₁ text
      · exact hflushed.format hsize (by simpa using herror₁) hempty text

/-! ### Calls -/

/-- What one call does. -/
theorem run_sound (hpos : 0 < size) (hsize : size < 2 ^ 64) (h : Sound kernel size all f)
    {c : WriteCall} (hrun : f.run kernel fuel c = some f') :
    Sound kernel size (all ++ c.payload) f' := by
  cases c with
  | string s => exact writeString_sound hpos h hrun
  | formatted text => exact writeFormattedString_sound hpos hsize h hrun
  | char ch => exact writeChar_sound hpos h hrun
  | block buffer => exact writeBlock_sound hpos h hrun
  | flush =>
      rw [WriteCall.payload, List.append_nil]
      exact (flushOutBuf_sound hpos h.toHolds hrun).1

/-- A call after the first. -/
theorem calls_cons {c : WriteCall} {cs : List WriteCall} {oks : List Bool}
    (hcalls : f.calls kernel fuel (c :: cs) = some (oks, f')) :
    ∃ f₁ oks₁, f.run kernel fuel c = some f₁ ∧ f₁.calls kernel fuel cs = some (oks₁, f') ∧
      oks = (!f₁.error) :: oks₁ := by
  unfold calls at hcalls
  obtain ⟨f₁, hrun, hcalls⟩ := Option.bind_eq_some_iff.mp hcalls
  obtain ⟨⟨oks₁, last⟩, hrest, hcalls⟩ := Option.bind_eq_some_iff.mp hcalls
  cases hcalls
  exact ⟨f₁, oks₁, hrun, hrest, rfl⟩

theorem calls_sound (hpos : 0 < size) (hsize : size < 2 ^ 64) (cs : List WriteCall)
    (h : Sound kernel size all f) {oks : List Bool}
    (hcalls : f.calls kernel fuel cs = some (oks, f')) :
    Sound kernel size (all ++ payloads cs) f' := by
  induction cs generalizing f all oks with
  | nil =>
      cases hcalls
      rw [payloads, List.flatMap_nil, List.append_nil]
      exact h
  | cons c cs ih =>
      obtain ⟨f₁, oks₁, hrun, hrest, -⟩ := calls_cons hcalls
      have hsplit : all ++ payloads (c :: cs) = (all ++ c.payload) ++ payloads cs := by
        rw [payloads, List.flatMap_cons, ← List.append_assoc]
        rfl
      rw [hsplit]
      exact ih (run_sound hpos hsize h hrun) hrest

theorem createBufferedFile_sound (kernel : Kernel) {outBuf : List Byte} (hpos : 0 < outBuf.length) :
    Sound kernel outBuf.length [] (createBufferedFile outBuf) where
  outBufSize := rfl
  outBuf := rfl
  outLength _ := Nat.zero_le _
  whole _ := rfl
  ordered := List.nil_prefix
  lastFails n hn _ := absurd hn (Nat.not_lt_zero n)
  room _ := hpos

/-! ### After an error -/

/-- What is left of a file after an error: the buffer may still be emptied. -/
structure Dead (f f' : OutputFile) : Prop where
  error : f'.error = true
  sent : f'.sent = f.sent
  writes : f'.writes = f.writes

theorem sendEntireBuffer_failed (herror : f.error = true) (fuel : ℕ) (buffer : List Byte) :
    sendEntireBuffer kernel fuel f buffer = some f := by
  rw [sendEntireBuffer.eq_def, if_pos (by rw [herror, Bool.true_or])]

theorem run_failed (herror : f.error = true) (kernel : Kernel) (fuel : ℕ) (c : WriteCall) :
    ∃ f', f.run kernel fuel c = some f' ∧ Dead f f' := by
  cases c with
  | string s =>
      refine ⟨f, ?_, herror, rfl, rfl⟩
      rw [run, writeString.eq_def, if_pos (by rw [herror, Bool.true_or])]
  | formatted text => exact ⟨f, by rw [run, writeFormattedString, if_pos herror], herror, rfl, rfl⟩
  | char ch => exact ⟨f, by rw [run, writeChar, if_pos herror], herror, rfl, rfl⟩
  | block buffer =>
      refine ⟨{ f with outLength := 0 }, ?_, herror, rfl, rfl⟩
      rw [run, writeBlock, flushOutBuf, sendEntireBuffer_failed herror, Option.map_some,
        Option.bind_some, sendEntireBuffer_failed (by exact herror)]
  | flush =>
      refine ⟨{ f with outLength := 0 }, ?_, herror, rfl, rfl⟩
      rw [run, flushOutBuf, sendEntireBuffer_failed herror, Option.map_some]

/-- Every call after an error fails, and sends nothing. -/
theorem calls_failed (herror : f.error = true) (kernel : Kernel) (fuel : ℕ) (cs : List WriteCall) :
    ∃ f', f.calls kernel fuel cs = some (List.replicate cs.length false, f') ∧ Dead f f' := by
  induction cs generalizing f with
  | nil => exact ⟨f, rfl, herror, rfl, rfl⟩
  | cons c cs ih =>
      obtain ⟨f₁, hrun, hdead⟩ := run_failed herror kernel fuel c
      obtain ⟨f₂, hcalls, hdead₂⟩ := ih hdead.error
      refine ⟨f₂, ?_, hdead₂.error, hdead₂.sent.trans hdead.sent, hdead₂.writes.trans hdead.writes⟩
      rw [calls, hrun, Option.bind_eq_bind, Option.bind_some, hcalls, Option.bind_eq_bind,
        Option.bind_some, hdead.error]
      rfl

/-! ### The writers return

A `write` of some bytes that does not fail takes at least one of them; then the loops end. -/

theorem sendEntireBuffer_returns (hprogress : ∀ n, kernel n ≠ some 0) {buffer : List Byte}
    (hfuel : buffer.length ≤ fuel) : ∃ f', sendEntireBuffer kernel fuel f buffer = some f' := by
  induction fuel generalizing f buffer with
  | zero => exact ⟨f, by rw [sendEntireBuffer, if_pos (by simp [Nat.le_zero.mp hfuel])]⟩
  | succ fuel ih =>
      rw [sendEntireBuffer]
      split_ifs
      · exact ⟨f, rfl⟩
      · cases hkernel : kernel f.writes with
        | none =>
            rw [writeSome, hkernel]
            exact ⟨_, sendEntireBuffer_failed rfl fuel buffer⟩
        | some written =>
            have hpos : written ≠ 0 := by
              rintro rfl
              exact hprogress _ hkernel
            rw [writeSome, hkernel]
            refine ih ?_
            rw [List.length_drop]
            omega

theorem flushOutBuf_returns (hprogress : ∀ n, kernel n ≠ some 0) (h : Holds kernel size all f)
    (hfuel : size ≤ fuel) : ∃ f', flushOutBuf kernel fuel f = some f' := by
  have hbuf := h.outBuf
  have hlength : f.buffered.length ≤ fuel := by
    rw [buffered, List.length_take]
    omega
  obtain ⟨f₁, hsend⟩ := @sendEntireBuffer_returns kernel fuel f hprogress _ hlength
  exact ⟨_, by rw [flushOutBuf, hsend, Option.map_some]⟩

theorem writeString_returns (hprogress : ∀ n, kernel n ≠ some 0) (hpos : 0 < size)
    (h : Sound kernel size all f) {string : List Byte} (hfuel : size + string.length ≤ fuel) :
    ∃ f', writeString kernel fuel f string = some f' := by
  induction fuel generalizing f string all with
  | zero => omega
  | succ fuel ih =>
      rw [writeString]
      split_ifs with hstop
      · exact ⟨f, rfl⟩
      · obtain ⟨herror, hstring⟩ : f.error = false ∧ string ≠ [] := by simpa using hstop
        have hlength := List.length_pos_iff.mpr hstring
        have hsize := h.outBufSize
        have hroom := h.room herror
        generalize hn : min (f.outBufSize - f.outLength) string.length = n
        have hstore := @Sound.store _ _ _ _ h herror (string.take n) n
          (by rw [List.length_take]; omega) (by omega)
        have hrest : size + (string.drop n).length ≤ fuel := by
          rw [List.length_drop]
          omega
        dsimp only
        split_ifs with hfull
        · obtain ⟨f₁, hflush⟩ := flushOutBuf_returns hprogress hstore (by omega : size ≤ fuel)
          rw [hflush, Option.bind_some]
          exact ih (flushOutBuf_sound hpos hstore hflush).1 hrest
        · exact ih ⟨hstore, fun _ => by dsimp only; omega⟩ hrest

theorem run_returns (hprogress : ∀ n, kernel n ≠ some 0) (hpos : 0 < size)
    (h : Sound kernel size all f) {c : WriteCall} (hfuel : size + c.payload.length ≤ fuel) :
    ∃ f', f.run kernel fuel c = some f' := by
  have hflush := flushOutBuf_returns hprogress h.toHolds (by omega : size ≤ fuel)
  cases c with
  | string s => exact writeString_returns hprogress hpos h hfuel
  | formatted text =>
      rw [run, writeFormattedString]
      split_ifs with herror
      · exact ⟨f, rfl⟩
      · have hattempt := h.attempt (by simpa using herror) text
        dsimp only
        split_ifs
        · exact ⟨_, rfl⟩
        · obtain ⟨f₁, hflush⟩ := flushOutBuf_returns hprogress hattempt (by omega : size ≤ fuel)
          exact ⟨_, by rw [hflush, Option.map_some]⟩
  | char ch =>
      rw [run, writeChar]
      split_ifs with herror
      · exact ⟨f, rfl⟩
      · have hstore := h.store (by simpa using herror) (rfl : [ch].length = 1)
          (h.room (by simpa using herror))
        dsimp only
        split_ifs
        · exact flushOutBuf_returns hprogress hstore (by omega)
        · exact ⟨_, rfl⟩
  | block buffer =>
      obtain ⟨f₁, hflush⟩ := hflush
      rw [run, writeBlock, hflush, Option.bind_some]
      rw [WriteCall.payload] at hfuel
      exact sendEntireBuffer_returns hprogress (by omega)
  | flush => exact hflush

theorem calls_returns (hprogress : ∀ n, kernel n ≠ some 0) (hpos : 0 < size)
    (hsize : size < 2 ^ 64) (cs : List WriteCall) (h : Sound kernel size all f)
    (hfuel : ∀ c ∈ cs, size + c.payload.length ≤ fuel) :
    ∃ oks f', f.calls kernel fuel cs = some (oks, f') := by
  induction cs generalizing f all with
  | nil => exact ⟨[], f, rfl⟩
  | cons c cs ih =>
      obtain ⟨f₁, hrun⟩ := run_returns hprogress hpos h (hfuel c List.mem_cons_self)
      obtain ⟨oks, f₂, hcalls⟩ := ih (run_sound hpos hsize h hrun)
        fun c hc => hfuel c (List.mem_cons_of_mem _ hc)
      refine ⟨(!f₁.error) :: oks, f₂, ?_⟩
      rw [calls, hrun, Option.bind_eq_bind, Option.bind_some, hcalls, Option.bind_eq_bind,
        Option.bind_some]
      rfl

end

/-- Until there is an error, what the kernel has taken and what is in the buffer are what the
writers have been given, and there is room in the buffer.  A `write` that fails is the last one, and
after an error every call fails and sends nothing.  If each `write` takes a byte or fails then all
the calls return. -/
theorem buffered_output (kernel : Kernel) (outBuf : List Byte) (hpos : 0 < outBuf.length)
    (hsize : outBuf.length < 2 ^ 64) (fuel : ℕ) (cs : List WriteCall) :
    (∀ oks f, (createBufferedFile outBuf).calls kernel fuel cs = some (oks, f) →
      (f.error = false → f.sent ++ f.buffered = payloads cs ∧ f.outLength < outBuf.length) ∧
      f.sent <+: payloads cs ∧
      (∀ n < f.writes, kernel n = none → f.error = true ∧ n + 1 = f.writes) ∧
      (f.error = true → ∀ later, ∃ f',
        f.calls kernel fuel later = some (List.replicate later.length false, f') ∧
          f'.sent = f.sent ∧ f'.writes = f.writes)) ∧
    ((∀ n, kernel n ≠ some 0) → (∀ c ∈ cs, outBuf.length + c.payload.length ≤ fuel) →
      ∃ oks f, (createBufferedFile outBuf).calls kernel fuel cs = some (oks, f)) := by
  have hcreate := createBufferedFile_sound kernel hpos
  refine ⟨fun oks f hcalls => ?_, fun hprogress hfuel =>
    calls_returns hprogress hpos hsize cs hcreate hfuel⟩
  have hsound := calls_sound hpos hsize cs hcreate hcalls
  rw [List.nil_append] at hsound
  refine ⟨fun hok => ⟨hsound.whole hok, hsound.room hok⟩, hsound.ordered, hsound.lastFails,
    fun herror later => ?_⟩
  obtain ⟨f', hlater, hdead⟩ := calls_failed herror kernel fuel later
  exact ⟨f', hlater, hdead.sent, hdead.writes⟩

/-- A buffer of four bytes, which every writer overruns, with a kernel that takes ever more. -/
theorem buffered_output_partial :
    let cs := [.string [1, 2, 3, 4, 5, 6], .char 7, .formatted [8, 9, 10], .block [11, 12, 13, 14, 15],
      .string [16]]
    ∃ oks f, (createBufferedFile [0, 0, 0, 0]).calls (fun n => some (n + 1)) 20 cs =
        some (oks, f) ∧
      f.error = false ∧ f.sent ++ f.buffered = payloads cs ∧ f.outLength = 1 := by
  intro cs
  obtain ⟨hall, hreturns⟩ := buffered_output (fun n => some (n + 1)) [0, 0, 0, 0] (by decide)
    (by simp) 20 cs
  obtain ⟨oks, f, hcalls⟩ := hreturns (fun n => by simp) (by decide)
  have hf : ((createBufferedFile [0, 0, 0, 0]).calls (fun n => some (n + 1)) 20 cs).map
      (fun r => (r.2.error, r.2.outLength)) = some (false, 1) := by decide +kernel
  rw [hcalls, Option.map_some, Option.some.injEq, Prod.mk.injEq] at hf
  exact ⟨oks, f, hcalls, hf.1, ((hall oks f hcalls).1 hf.1).1, hf.2⟩

/-- A formatted text that does not fit into the buffer leaves its own length as that of the
buffered bytes. -/
theorem formatted_too_long :
    ∃ oks f, (createBufferedFile [0, 0, 0, 0]).calls (fun _ => some 1) 10
        [.formatted [1, 2, 3, 4, 5]] = some (oks, f) ∧ ¬ f.outLength ≤ f.outBufSize := by
  have hrun : ((createBufferedFile [0, 0, 0, 0]).calls (fun _ => some 1) 10
      [.formatted [1, 2, 3, 4, 5]]).any (fun r => r.2.outBufSize < r.2.outLength) = true := by
    decide +kernel
  obtain ⟨⟨oks, f⟩, hcalls, hf⟩ := (Option.any_eq_true _ _).mp hrun
  exact ⟨oks, f, hcalls, by simpa using hf⟩

end OutputFile

end Mbf.Socket
