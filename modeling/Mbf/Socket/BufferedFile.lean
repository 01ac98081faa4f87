import Mathlib.Data.List.TakeWhile
import Mathlib.Algebra.Order.Group.Nat

/-! # Buffered input from a socket

`buffered_file.c` reads a socket through a buffer that is refilled only once it is empty.  How the
stream is split over the calls of `read` is up to the network: the socket here is the list of the
chunks that these calls return, and a call after the last of them finds the end of the stream.

`Stream` says what the two readers are for, on the stream alone; the readers are shown to do this
whatever the chunks are.  Writes to the socket succeed. -/

namespace Mbf.Socket

abbrev Byte := BitVec 8

/-- The character `\n`. -/
def newline : Byte := 10

/-- `struct buffered_file`, with the chunks that the socket still has and what it has been sent. -/
structure BufferedFile where
  sock : List (List Byte)
  sent : List Byte
  eof : Bool
  error : Bool
  inLength : ℕ
  readPtr : ℕ
  inBufSize : ℕ
  inBuf : List Byte
  /-- The first `out_length` bytes of `out_buf`. -/
  outBuf : List Byte

/-! ### The readers -/

/-- `flush_out_buf`. -/
def flushOutBuf (f : BufferedFile) : BufferedFile :=
  { f with sent := if f.error then f.sent else f.sent ++ f.outBuf, outBuf := [] }

/-- The chunk that a call of `read` returns. -/
def readChunk : List (List Byte) → List Byte × List (List Byte)
  | [] => ([], [])
  | chunk :: sock => (chunk, sock)

/-- `fill_in_buf`. -/
def fillInBuf (f : BufferedFile) : BufferedFile :=
  if !f.eof && !f.error then
    let (chunk, sock) := readChunk f.sock
    { f with
      sock, eof := chunk.length = 0, readPtr := 0, inLength := chunk.length
      inBuf := chunk ++ f.inBuf.drop chunk.length }
  else f

/-- `memchr(data, '\n', n)`, as an offset. -/
def memchr (data : List Byte) : Option ℕ := data.findIdx? (· = newline)

/-- The data in the input buffer. -/
def BufferedFile.available (f : BufferedFile) : List Byte :=
  (f.inBuf.drop f.readPtr).take (f.inLength - f.readPtr)

/-- `read_line`, with what has already been stored of the line. -/
def readLine (fuel : ℕ) (f : BufferedFile) (line : List Byte) (lineSize : ℕ) (flush : Bool) :
    Option (Bool × List Byte × BufferedFile) :=
  if f.eof || f.error then some (false, line, f)
  else
    match fuel with
    | 0 => none
    | fuel + 1 =>
        match memchr f.available with
        | some lineLength =>
            if lineLength + 1 < lineSize then
              some (true, line ++ f.available.take lineLength,
                { f with readPtr := f.readPtr + lineLength + 1 })
            else some (false, line, { f with error := true })
        | none =>
            let dataAvail := f.inLength - f.readPtr
            if dataAvail + 1 < lineSize then
              let f' := if flush then flushOutBuf f else f
              readLine fuel (fillInBuf f') (line ++ f.available) (lineSize - dataAvail) false
            else some (false, line, { f with error := true })

/-- `read_block`, with what has already been stored of the block. -/
def readBlock (fuel : ℕ) (f : BufferedFile) (data : List Byte) (length : ℕ) :
    Option (Bool × List Byte × BufferedFile) :=
  if f.eof || f.error || length = 0 then
    some (!f.eof && !f.error && length = 0, data, f)
  else
    match fuel with
    | 0 => none
    | fuel + 1 =>
        let toCopy := min (f.inLength - f.readPtr) length
        let f' := { f with readPtr := f.readPtr + toCopy }
        readBlock fuel (if 0 < length - toCopy then fillInBuf f' else f')
          (data ++ (f.inBuf.drop f.readPtr).take toCopy) (length - toCopy)

/-- `create_buffered_file` on a socket. -/
def createBufferedFile (sock : List (List Byte)) (inBufSize : ℕ) : BufferedFile where
  sock
  sent := []
  eof := false
  error := false
  inLength := 0
  readPtr := 0
  inBufSize
  inBuf := List.replicate inBufSize 0
  outBuf := []

/-! ### Calls -/

/-- A call of one of the readers. -/
inductive Call where
  | line (size : ℕ) (flush : Bool)
  | block (length : ℕ)

/-- What the caller learns: whether the call succeeded, what it then stored, whether the stream has
ended and whether there has been an error. -/
structure Outcome where
  ok : Bool
  data : List Byte
  eof : Bool
  error : Bool
  deriving DecidableEq

/-- The outcome of a call that left the file in the state `f`. -/
def outcome (ok : Bool) (data : List Byte) (f : BufferedFile) : Outcome :=
  ⟨ok, if ok then data else [], f.eof, f.error⟩

def BufferedFile.call (fuel : ℕ) (f : BufferedFile) : Call → Option (Outcome × BufferedFile)
  | .line size flush =>
      (readLine fuel f [] size flush).map fun (ok, data, f) => (outcome ok data f, f)
  | .block length =>
      (readBlock fuel f [] length).map fun (ok, data, f) => (outcome ok data f, f)

/-- The outcomes of a sequence of calls. -/
def BufferedFile.calls (fuel : ℕ) : BufferedFile → List Call → Option (List Outcome × BufferedFile)
  | f, [] => some ([], f)
  | f, c :: cs => do
      let (o, f) ← f.call fuel c
      let (os, f) ← f.calls fuel cs
      return (o :: os, f)

/-! ### What the readers are for -/

/-- A stream that is read: what is left of it, and how it has ended. -/
structure Stream where
  unread : List Byte
  eof : Bool
  error : Bool

namespace Stream

/-- The bytes before the first newline, or all of them. -/
def firstLine (l : List Byte) : List Byte := l.takeWhile (· ≠ newline)

/-- A line must leave room for its terminator and for one more byte.  A line that is too long is an
error, whether or not it is complete. -/
def readLine (s : Stream) (size : ℕ) : Outcome × Stream :=
  let line := firstLine s.unread
  if s.eof || s.error then (⟨false, [], s.eof, s.error⟩, s)
  else if size ≤ line.length + 1 then (⟨false, [], false, true⟩, { s with error := true })
  else if line.length < s.unread.length then
    (⟨true, line, false, false⟩, { s with unread := s.unread.drop (line.length + 1) })
  else (⟨false, [], true, false⟩, ⟨[], true, false⟩)

def readBlock (s : Stream) (length : ℕ) : Outcome × Stream :=
  if s.eof || s.error then (⟨false, [], s.eof, s.error⟩, s)
  else if length ≤ s.unread.length then
    (⟨true, s.unread.take length, false, false⟩, { s with unread := s.unread.drop length })
  else (⟨false, [], true, false⟩, ⟨[], true, false⟩)

def call (s : Stream) : Call → Outcome × Stream
  | .line size _ => s.readLine size
  | .block length => s.readBlock length

def calls : Stream → List Call → List Outcome × Stream
  | s, [] => ([], s)
  | s, c :: cs =>
      let (o, s) := s.call c
      let (os, s) := s.calls cs
      (o :: os, s)

/-- The stream has neither ended nor failed. -/
def Open (s : Stream) : Prop := s.eof = false ∧ s.error = false

/-- The bytes that a call has taken from the stream for its caller. -/
def taken : Call → Outcome → List Byte
  | .line _ _, o => if o.ok then o.data ++ [newline] else []
  | .block _, o => if o.ok then o.data else []

/-- The bytes that a sequence of calls has taken. -/
def allTaken : List Call → List Outcome → List Byte
  | c :: cs, o :: os => taken c o ++ allTaken cs os
  | _, _ => []

end Stream

/-! ### The file and its stream -/

/-- The bytes that have not been read. -/
def BufferedFile.unread (f : BufferedFile) : List Byte := f.available ++ f.sock.flatten

/-- The counts are within the buffer, and the chunks can be read into it. -/
structure BufferedFile.Sound (f : BufferedFile) : Prop where
  inBuf : f.inBuf.length = f.inBufSize
  inLength : f.inLength ≤ f.inBufSize
  readPtr : f.readPtr ≤ f.inLength
  chunks : ∀ chunk ∈ f.sock, 0 < chunk.length ∧ chunk.length ≤ f.inBufSize

theorem BufferedFile.Sound.available_length {f : BufferedFile} (h : f.Sound) :
    f.available.length = f.inLength - f.readPtr := by
  have hbuf := h.inBuf
  have hlength := h.inLength
  unfold BufferedFile.available
  rw [List.length_take, List.length_drop]
  omega

theorem fillInBuf_nil {f : BufferedFile} (heof : f.eof = false) (herror : f.error = false)
    (hsock : f.sock = []) :
    fillInBuf f = { f with eof := true, readPtr := 0, inLength := 0 } := by
  obtain ⟨sock, sent, eof, error, inLength, readPtr, inBufSize, inBuf, outBuf⟩ := f
  dsimp only at heof herror hsock
  subst heof herror hsock
  rfl

theorem fillInBuf_cons {f : BufferedFile} (heof : f.eof = false) (herror : f.error = false)
    {chunk : List Byte} {sock : List (List Byte)} (hsock : f.sock = chunk :: sock)
    (hchunk : 0 < chunk.length) :
    fillInBuf f = { f with
      sock, readPtr := 0, inLength := chunk.length
      inBuf := chunk ++ f.inBuf.drop chunk.length } := by
  obtain ⟨sock', sent, eof, error, inLength, readPtr, inBufSize, inBuf, outBuf⟩ := f
  dsimp only at heof herror hsock
  subst heof herror hsock
  simp [fillInBuf, readChunk, hchunk.ne']

/-- Filling the empty buffer takes over the next chunk, or finds the end. -/
theorem fillInBuf_spec {f : BufferedFile} (h : f.Sound) (heof : f.eof = false)
    (herror : f.error = false) :
    (fillInBuf f).Sound ∧ (fillInBuf f).error = false ∧
      ((fillInBuf f).eof = true ∧ f.sock = [] ∧ (fillInBuf f).sock = [] ∨
        (fillInBuf f).eof = false ∧ (fillInBuf f).sock.length + 1 = f.sock.length ∧
          (fillInBuf f).unread = f.sock.flatten) := by
  have hbuf := h.inBuf
  cases hsock : f.sock with
  | nil =>
      rw [fillInBuf_nil heof herror hsock]
      exact ⟨⟨hbuf, Nat.zero_le _, le_rfl, h.chunks⟩, herror, .inl ⟨rfl, rfl, hsock⟩⟩
  | cons chunk sock =>
      obtain ⟨hpos, hle⟩ := h.chunks chunk (by simp [hsock])
      rw [fillInBuf_cons heof herror hsock hpos]
      refine ⟨⟨?_, hle, Nat.zero_le _, ?_⟩, herror, .inr ⟨heof, rfl, ?_⟩⟩
      · simp only [List.length_append, List.length_drop]
        omega
      · intro c hc
        exact h.chunks c (by rw [hsock]; exact List.mem_cons_of_mem _ hc)
      · simp [BufferedFile.unread, BufferedFile.available]

/-! ### Lines -/

/-- Where the newline of a line is, if there is one. -/
theorem memchr_some {l : List Byte} {n : ℕ} (h : memchr l = some n) (rest : List Byte) :
    Stream.firstLine (l ++ rest) = l.take n ∧ n < l.length := by
  unfold memchr at h
  obtain ⟨hn, hnewline, hbefore⟩ := List.findIdx?_eq_some_iff_getElem.mp h
  refine ⟨?_, hn⟩
  have hsplit : l ++ rest = l.take n ++ (l[n] :: (l.drop (n + 1) ++ rest)) := by
    rw [← List.cons_append, ← List.drop_eq_getElem_cons hn, ← List.append_assoc,
      List.take_append_drop]
  unfold Stream.firstLine
  rw [hsplit, List.takeWhile_append_of_pos, List.takeWhile_cons_of_neg, List.append_nil]
  · simpa using hnewline
  · intro b hb
    obtain ⟨j, hj, rfl⟩ := List.getElem_of_mem hb
    rw [List.length_take] at hj
    rw [List.getElem_take]
    simpa using hbefore j (by omega)

theorem memchr_none {l : List Byte} (h : memchr l = none) (rest : List Byte) :
    Stream.firstLine (l ++ rest) = l ++ Stream.firstLine rest := by
  unfold memchr at h
  rw [List.findIdx?_eq_none_iff] at h
  unfold Stream.firstLine
  rw [List.takeWhile_append_of_pos]
  intro b hb
  simpa using h b hb

/-- What a file is a stream of: once there has been an error nothing more is read. -/
structure BufferedFile.Reads (f : BufferedFile) (s : Stream) : Prop where
  sound : f.Sound
  eof : f.eof = s.eof
  error : f.error = s.error
  unread : s.eof = false → s.error = false → f.unread = s.unread

/-- What has been taken from the buffer is no longer unread. -/
theorem unread_skip {f : BufferedFile} {n : ℕ} (hn : n ≤ f.available.length) :
    BufferedFile.unread { f with readPtr := f.readPtr + n } = f.unread.drop n := by
  unfold BufferedFile.unread
  rw [List.drop_append_of_le_length hn]
  unfold BufferedFile.available
  rw [List.drop_take, List.drop_drop, Nat.sub_sub]

theorem BufferedFile.Sound.skip {f : BufferedFile} (h : f.Sound) {n : ℕ}
    (hn : n ≤ f.available.length) :
    BufferedFile.Sound { f with readPtr := f.readPtr + n } := by
  rw [h.available_length] at hn
  have hptr := h.readPtr
  exact ⟨h.inBuf, h.inLength, by dsimp only; omega, h.chunks⟩

theorem readLine_closed {f : BufferedFile} (h : (f.eof || f.error) = true) (fuel : ℕ)
    (line : List Byte) (size : ℕ) (flush : Bool) :
    readLine fuel f line size flush = some (false, line, f) := by
  rw [readLine.eq_def, if_pos h]

theorem readBlock_closed {f : BufferedFile} {length : ℕ}
    (h : (f.eof || f.error || length = 0) = true) (fuel : ℕ) (data : List Byte) :
    readBlock fuel f data length = some (!f.eof && !f.error && length = 0, data, f) := by
  rw [readBlock.eq_def, if_pos h]

/-- What becomes of a line of which `first` is the rest: it is complete, it is too long, or the
stream ends before it does. -/
structure LineRead (line first unread : List Byte) (size : ℕ) (ok : Bool) (data : List Byte)
    (f : BufferedFile) : Prop where
  sound : f.Sound
  overrun : size ≤ first.length + 1 → ok = false ∧ f.eof = false ∧ f.error = true
  fits : first.length + 1 < size → f.error = false
  complete : first.length + 1 < size → first.length < unread.length →
    ok = true ∧ data = line ++ first ∧ f.eof = false ∧ f.unread = unread.drop (first.length + 1)
  ended : first.length + 1 < size → first.length = unread.length → ok = false ∧ f.eof = true

/-- A line whose newline is in the buffer. -/
theorem readLine_found {f : BufferedFile} (h : f.Sound) (heof : f.eof = false)
    (herror : f.error = false) (line : List Byte) (size n : ℕ) (hn : memchr f.available = some n) :
    let f' := { f with readPtr := f.readPtr + n + 1 }
    (n + 1 < size → LineRead line (Stream.firstLine f.unread) f.unread size true
      (line ++ f.available.take n) f') ∧
    (¬ n + 1 < size → LineRead line (Stream.firstLine f.unread) f.unread size false line
      { f with error := true }) := by
  obtain ⟨hfirst, hlt⟩ := memchr_some hn f.sock.flatten
  change Stream.firstLine f.unread = _ at hfirst
  have hlength : (f.available.take n).length = n := by
    rw [List.length_take]
    omega
  have hunread : f.unread.length = f.available.length + f.sock.flatten.length :=
    List.length_append
  rw [hfirst]
  refine ⟨fun hsize => ⟨h.skip hlt, ?_, fun _ => herror, fun _ _ => ⟨rfl, rfl, heof, ?_⟩, ?_⟩,
    fun hsize => ⟨⟨h.inBuf, h.inLength, h.readPtr, h.chunks⟩, fun _ => ⟨rfl, heof, rfl⟩, ?_, ?_, ?_⟩⟩
  · intro hle
    omega
  · rw [hlength]
    exact unread_skip hlt
  · intro _ hend
    omega
  all_goals
    intro hlt'
    omega

/-- If the end of the buffer is within the line, the rest of the line is read after it. -/
theorem LineRead.more {line available first rest data : List Byte} {size : ℕ} {ok : Bool}
    {f : BufferedFile}
    (h : LineRead (line ++ available) first rest (size - available.length) ok data f)
    (hsize : available.length + 1 < size) :
    LineRead line (available ++ first) (available ++ rest) size ok data f := by
  have hfirst : (available ++ first).length = available.length + first.length := List.length_append
  have hrest : (available ++ rest).length = available.length + rest.length := List.length_append
  refine ⟨h.sound, fun hle => h.overrun (by omega), fun hlt => h.fits (by omega),
    fun hlt hshort => ?_, fun hlt hend => h.ended (by omega) (by omega)⟩
  obtain ⟨hok, hdata, heof, hunread⟩ := h.complete (by omega) (by omega)
  refine ⟨hok, by rw [hdata, List.append_assoc], heof, ?_⟩
  rw [hunread, hfirst, Nat.add_assoc, List.drop_length_add_append]

theorem readLine_spec (fuel : ℕ) (f : BufferedFile) (line : List Byte) (size : ℕ) (flush : Bool)
    (h : f.Sound) (heof : f.eof = false) (herror : f.error = false)
    (hfuel : f.sock.length < fuel) :
    ∃ ok data f', readLine fuel f line size flush = some (ok, data, f') ∧
      f'.sock.length ≤ f.sock.length ∧
      LineRead line (Stream.firstLine f.unread) f.unread size ok data f' := by
  induction fuel generalizing f line size flush with
  | zero => omega
  | succ fuel ih =>
      have havailable := h.available_length
      have hopen : (f.eof || f.error) = false := by rw [heof, herror]; rfl
      rw [readLine, if_neg (by simp [hopen])]
      dsimp only
      cases hmemchr : memchr f.available with
      | some n =>
          obtain ⟨hfits, hoverrun⟩ := readLine_found h heof herror line size n hmemchr
          dsimp only
          split_ifs with hsize
          · exact ⟨_, _, _, rfl, le_rfl, hfits hsize⟩
          · exact ⟨_, _, _, rfl, le_rfl, hoverrun hsize⟩
      | none =>
          have hfirst := memchr_none hmemchr f.sock.flatten
          change Stream.firstLine f.unread = _ at hfirst
          have hunread : f.unread.length = f.available.length + f.sock.flatten.length :=
            List.length_append
          have hlength := congrArg List.length hfirst
          rw [List.length_append] at hlength
          dsimp only
          obtain ⟨f₁, hf₁, hsound, heof₁, herror₁, hsock⟩ : ∃ f₁ : BufferedFile,
              (if flush then flushOutBuf f else f) = f₁ ∧ f₁.Sound ∧ f₁.eof = false ∧
                f₁.error = false ∧ f₁.sock = f.sock := by
            cases flush with
            | false => exact ⟨f, rfl, h, heof, herror, rfl⟩
            | true => exact ⟨_, rfl, ⟨h.inBuf, h.inLength, h.readPtr, h.chunks⟩, heof, herror, rfl⟩
          obtain ⟨hsound₂, herror₂, hfill⟩ := fillInBuf_spec hsound heof₁ herror₁
          rw [hf₁]
          rw [hsock] at hfill
          split_ifs with hsize
          · rcases hfill with ⟨heof₂, hnil, hempty⟩ | ⟨heof₂, hless, hunread₂⟩
            · have hempty : (fillInBuf f₁).sock.length ≤ f.sock.length := by
                rw [hempty]
                exact Nat.zero_le _
              rw [readLine_closed (by rw [heof₂, Bool.true_or])]
              rw [hnil] at hunread hlength
              have hnone : (Stream.firstLine [].flatten).length = 0 := rfl
              refine ⟨_, _, _, rfl, hempty, hsound₂, ?_, fun _ => herror₂, ?_,
                fun _ _ => ⟨rfl, heof₂⟩⟩
              all_goals
                intro hlt
                simp at hunread
                omega
            · obtain ⟨ok, data, f', hread, hfewer, hline⟩ := ih (fillInBuf f₁) (line ++ f.available)
                (size - (f.inLength - f.readPtr)) false hsound₂ heof₂ herror₂ (by omega)
              refine ⟨ok, data, f', hread, by omega, ?_⟩
              rw [hunread₂, ← havailable] at hline
              rw [hfirst]
              exact hline.more (by omega)
          · refine ⟨_, _, _, rfl, le_rfl, ⟨h.inBuf, h.inLength, h.readPtr, h.chunks⟩,
              fun _ => ⟨rfl, heof, rfl⟩, ?_, ?_, ?_⟩
            all_goals
              intro hlt
              omega

/-! ### Blocks -/

/-- A block of `length` bytes has been read, or the stream has ended first. -/
structure BlockRead (stored unread : List Byte) (length : ℕ) (ok : Bool) (data : List Byte)
    (f : BufferedFile) : Prop where
  sound : f.Sound
  error : f.error = false
  complete : length ≤ unread.length →
    ok = true ∧ data = stored ++ unread.take length ∧ f.eof = false ∧ f.unread = unread.drop length
  ended : unread.length < length → ok = false ∧ f.eof = true

/-- If the end of the buffer is within the block, the rest of the block is read after it. -/
theorem BlockRead.more {stored available rest data : List Byte} {length : ℕ} {ok : Bool}
    {f : BufferedFile}
    (h : BlockRead (stored ++ available) rest (length - available.length) ok data f)
    (hlength : available.length ≤ length) :
    BlockRead stored (available ++ rest) length ok data f := by
  have hunread : (available ++ rest).length = available.length + rest.length := List.length_append
  refine ⟨h.sound, h.error, fun hle => ?_, fun hlt => h.ended (by omega)⟩
  obtain ⟨hok, hdata, heof, hrest⟩ := h.complete (by omega)
  refine ⟨hok, ?_, heof, ?_⟩
  · rw [hdata, List.take_append, List.take_of_length_le hlength, List.append_assoc]
  · rw [hrest, List.drop_append, List.drop_eq_nil_of_le hlength, List.nil_append]

theorem readBlock_spec (fuel : ℕ) (f : BufferedFile) (data : List Byte) (length : ℕ) (h : f.Sound)
    (heof : f.eof = false) (herror : f.error = false) (hfuel : f.sock.length < fuel) :
    ∃ ok data' f', readBlock fuel f data length = some (ok, data', f') ∧
      f'.sock.length ≤ f.sock.length ∧ BlockRead data f.unread length ok data' f' := by
  induction fuel generalizing f data length with
  | zero => omega
  | succ fuel ih =>
      have havailable := h.available_length
      have hunread : f.unread.length = f.available.length + f.sock.flatten.length :=
        List.length_append
      cases length with
      | zero =>
          rw [readBlock_closed (by simp)]
          refine ⟨_, _, _, rfl, le_rfl, h, herror, fun _ => ⟨?_, ?_, heof, rfl⟩, fun hlt => ?_⟩
          · simp [heof, herror]
          · simp
          · omega
      | succ length =>
          have hcopy : (f.inBuf.drop f.readPtr).take (min (f.inLength - f.readPtr) (length + 1)) =
              f.available.take (length + 1) := by
            unfold BufferedFile.available
            rw [List.take_take, Nat.min_comm]
          rw [readBlock, if_neg (by simp [heof, herror])]
          dsimp only
          rw [hcopy]
          rcases Nat.lt_or_ge (f.inLength - f.readPtr) (length + 1) with hlt | hge
          · rw [Nat.min_eq_left hlt.le, if_pos (by omega),
              List.take_of_length_le (by omega : f.available.length ≤ length + 1)]
            have hskip := h.skip (by omega : f.inLength - f.readPtr ≤ f.available.length)
            obtain ⟨hsound₂, herror₂, hfill⟩ := fillInBuf_spec hskip heof herror
            rcases hfill with ⟨heof₂, hnil, hempty⟩ | ⟨heof₂, hless, hunread₂⟩
            · rw [readBlock_closed (by rw [heof₂]; rfl)]
              refine ⟨_, _, _, rfl, ?_, hsound₂, herror₂, fun hle => ?_, fun _ => ⟨?_, heof₂⟩⟩
              · rw [hempty]
                exact Nat.zero_le _
              · change f.sock = [] at hnil
                rw [hnil] at hunread
                simp at hunread
                omega
              · rw [heof₂]
                rfl
            · obtain ⟨ok, data', f', hread, hfewer, hblock⟩ :=
                ih _ (data ++ f.available) (length + 1 - (f.inLength - f.readPtr)) hsound₂ heof₂
                  herror₂ (by dsimp only at hless; omega)
              refine ⟨ok, data', f', hread, by dsimp only at hless; omega, ?_⟩
              rw [hunread₂, ← havailable] at hblock
              exact hblock.more (by omega)
          · rw [Nat.min_eq_right hge, if_neg (by omega), Nat.sub_self, readBlock_closed (by simp)]
            have hle : length + 1 ≤ f.available.length := by omega
            refine ⟨_, _, _, rfl, le_rfl, h.skip hle, herror, fun _ => ⟨?_, ?_, heof, ?_⟩,
              fun hlt => ?_⟩
            · simp [heof, herror]
            · unfold BufferedFile.unread
              rw [List.take_append_of_le_length hle]
            · exact unread_skip hle
            · omega

/-! ### The stream -/

namespace Stream

theorem firstLine_length_le (l : List Byte) : (firstLine l).length ≤ l.length :=
  (List.takeWhile_sublist _).length_le

/-- A line that is shorter than what is unread is followed by its newline. -/
theorem firstLine_newline {l : List Byte} (h : (firstLine l).length < l.length) :
    l = firstLine l ++ newline :: l.drop ((firstLine l).length + 1) := by
  induction l with
  | nil => simp at h
  | cons b l ih =>
      unfold firstLine at h ih ⊢
      rw [List.takeWhile_cons] at h ⊢
      split_ifs at h ⊢ with hb
      · have hl := ih (by simpa using h)
        rw [List.length_cons, List.drop_succ_cons, List.cons_append, ← hl]
      · have hnewline : b = newline := by simpa using hb
        simp [hnewline]

theorem Open.flags {s : Stream} (h : s.Open) : (s.eof || s.error) = false := by
  rw [h.1, h.2]
  rfl

theorem not_open {s : Stream} (h : ¬ s.Open) : (s.eof || s.error) = true := by
  unfold Open at h
  cases heof : s.eof with
  | true => rfl
  | false =>
      cases herror : s.error with
      | true => rfl
      | false => exact absurd ⟨heof, herror⟩ h

section calls
variable {s : Stream} {size length : ℕ}

theorem readLine_overrun (h : s.Open) (hsize : size ≤ (firstLine s.unread).length + 1) :
    s.readLine size = (⟨false, [], false, true⟩, { s with error := true }) := by
  unfold readLine
  dsimp only
  rw [h.flags, if_neg (by simp), if_pos hsize]

theorem readLine_complete (h : s.Open) (hsize : (firstLine s.unread).length + 1 < size)
    (hshort : (firstLine s.unread).length < s.unread.length) :
    s.readLine size = (⟨true, firstLine s.unread, false, false⟩,
      { s with unread := s.unread.drop ((firstLine s.unread).length + 1) }) := by
  unfold readLine
  dsimp only
  rw [h.flags, if_neg (by simp), if_neg (by omega), if_pos hshort]

theorem readLine_ended (h : s.Open) (hsize : (firstLine s.unread).length + 1 < size)
    (hend : (firstLine s.unread).length = s.unread.length) :
    s.readLine size = (⟨false, [], true, false⟩, ⟨[], true, false⟩) := by
  unfold readLine
  dsimp only
  rw [h.flags, if_neg (by simp), if_neg (by omega), if_neg (by omega)]

theorem readBlock_complete (h : s.Open) (hle : length ≤ s.unread.length) :
    s.readBlock length = (⟨true, s.unread.take length, false, false⟩,
      { s with unread := s.unread.drop length }) := by
  unfold readBlock
  rw [h.flags, if_neg (by simp), if_pos hle]

theorem readBlock_ended (h : s.Open) (hlt : s.unread.length < length) :
    s.readBlock length = (⟨false, [], true, false⟩, ⟨[], true, false⟩) := by
  unfold readBlock
  rw [h.flags, if_neg (by simp), if_neg (by omega)]

theorem call_closed (h : ¬ s.Open) (c : Call) :
    s.call c = (⟨false, [], s.eof, s.error⟩, s) := by
  have hclosed := not_open h
  cases c with
  | line size flush =>
      unfold call readLine
      dsimp only
      rw [if_pos hclosed]
  | block length =>
      unfold call readBlock
      dsimp only
      rw [if_pos hclosed]

/-- A line is complete, too long, or ended by the end of the stream. -/
theorem line_cases (s : Stream) (size : ℕ) :
    size ≤ (firstLine s.unread).length + 1 ∨
      (firstLine s.unread).length + 1 < size ∧ (firstLine s.unread).length < s.unread.length ∨
      (firstLine s.unread).length + 1 < size ∧ (firstLine s.unread).length = s.unread.length := by
  have hle := firstLine_length_le s.unread
  omega

/-- The flags that a call reports are those of the stream after it. -/
theorem call_flags (s : Stream) (c : Call) :
    (s.call c).1.eof = (s.call c).2.eof ∧ (s.call c).1.error = (s.call c).2.error := by
  by_cases h : s.Open
  · cases c with
    | line size flush =>
        unfold call
        dsimp only
        rcases line_cases s size with hover | ⟨hsize, hshort⟩ | ⟨hsize, hend⟩
        · rw [readLine_overrun h hover]
          exact ⟨h.1.symm, rfl⟩
        · rw [readLine_complete h hsize hshort]
          exact ⟨h.1.symm, h.2.symm⟩
        · rw [readLine_ended h hsize hend]
          exact ⟨rfl, rfl⟩
    | block length =>
        unfold call
        dsimp only
        rcases Nat.lt_or_ge s.unread.length length with hlt | hle
        · rw [readBlock_ended h hlt]
          exact ⟨rfl, rfl⟩
        · rw [readBlock_complete h hle]
          exact ⟨h.1.symm, h.2.symm⟩
  · rw [call_closed h]
    exact ⟨rfl, rfl⟩

/-- What is taken comes from the start of what is unread. -/
theorem call_taken (h : s.Open) (c : Call) :
    ∃ rest, s.unread = taken c (s.call c).1 ++ rest ∧
      ((s.call c).2.Open → (s.call c).2.unread = rest) := by
  cases c with
  | line size flush =>
      unfold call
      dsimp only
      rcases line_cases s size with hover | ⟨hsize, hshort⟩ | ⟨hsize, hend⟩
      · rw [readLine_overrun h hover]
        exact ⟨s.unread, rfl, fun _ => rfl⟩
      · rw [readLine_complete h hsize hshort]
        refine ⟨s.unread.drop ((firstLine s.unread).length + 1), ?_, fun _ => rfl⟩
        simpa [taken] using firstLine_newline hshort
      · rw [readLine_ended h hsize hend]
        exact ⟨s.unread, rfl, fun hopen => Bool.noConfusion hopen.1⟩
  | block length =>
      unfold call
      dsimp only
      rcases Nat.lt_or_ge s.unread.length length with hlt | hle
      · rw [readBlock_ended h hlt]
        exact ⟨s.unread, rfl, fun hopen => Bool.noConfusion hopen.1⟩
      · rw [readBlock_complete h hle]
        exact ⟨s.unread.drop length, (List.take_append_drop length s.unread).symm, fun _ => rfl⟩

/-- A line is rejected exactly if it is too long for its buffer. -/
theorem readLine_rejects (h : s.Open) (size : ℕ) :
    (s.readLine size).1.error = true ↔ size ≤ (firstLine s.unread).length + 1 := by
  rcases line_cases s size with hover | ⟨hsize, hshort⟩ | ⟨hsize, hend⟩
  · rw [readLine_overrun h hover]
    exact ⟨fun _ => hover, fun _ => rfl⟩
  · rw [readLine_complete h hsize hshort]
    exact ⟨fun hfalse => Bool.noConfusion hfalse, fun hle => absurd hle (by omega)⟩
  · rw [readLine_ended h hsize hend]
    exact ⟨fun hfalse => Bool.noConfusion hfalse, fun hle => absurd hle (by omega)⟩

end calls

theorem calls_closed {s : Stream} (h : ¬ s.Open) (cs : List Call) :
    allTaken cs (s.calls cs).1 = [] ∧ (s.calls cs).2 = s := by
  induction cs with
  | nil => exact ⟨rfl, rfl⟩
  | cons c cs ih =>
      have htaken : taken c ⟨false, [], s.eof, s.error⟩ = [] := by cases c <;> rfl
      simp only [calls, allTaken, call_closed h c, htaken, List.nil_append]
      exact ih

theorem calls_taken {s : Stream} (h : s.Open) (cs : List Call) :
    ∃ rest, s.unread = allTaken cs (s.calls cs).1 ++ rest ∧
      ((s.calls cs).2.Open → (s.calls cs).2.unread = rest) := by
  induction cs generalizing s with
  | nil => exact ⟨s.unread, rfl, fun _ => rfl⟩
  | cons c cs ih =>
      obtain ⟨rest, hrest, hleft⟩ := call_taken h c
      simp only [calls, allTaken]
      by_cases hopen : (s.call c).2.Open
      · obtain ⟨rest', hrest', hleft'⟩ := ih hopen
        refine ⟨rest', ?_, hleft'⟩
        rw [hrest, ← hleft hopen, hrest', List.append_assoc]
      · obtain ⟨hnone, hsame⟩ := calls_closed hopen cs
        rw [hnone, hsame, List.append_nil]
        exact ⟨rest, hrest, fun h => absurd h hopen⟩

theorem calls_length (s : Stream) (cs : List Call) : (s.calls cs).1.length = cs.length := by
  induction cs generalizing s with
  | nil => rfl
  | cons c cs ih => simp [calls, ih]

theorem calls_append (s : Stream) (cs cs' : List Call) :
    s.calls (cs ++ cs') =
      ((s.calls cs).1 ++ ((s.calls cs).2.calls cs').1, ((s.calls cs).2.calls cs').2) := by
  induction cs generalizing s with
  | nil => rfl
  | cons c cs ih => simp [calls, ih]

/-- The stream is open as long as no call has reported otherwise. -/
theorem calls_open {s : Stream} (h : s.Open) (cs : List Call)
    (hall : ∀ o ∈ (s.calls cs).1, o.eof = false ∧ o.error = false) : (s.calls cs).2.Open := by
  induction cs generalizing s with
  | nil => exact h
  | cons c cs ih =>
      simp only [calls, List.mem_cons, forall_eq_or_imp] at hall ⊢
      obtain ⟨heof, herror⟩ := call_flags s c
      exact ih ⟨heof ▸ hall.1.1, herror ▸ hall.1.2⟩ hall.2

end Stream

/-! ### The file does what the stream does -/

theorem call_reads {f : BufferedFile} {s : Stream} (h : f.Reads s) {fuel : ℕ}
    (hfuel : f.sock.length < fuel) (c : Call) :
    ∃ f', f.call fuel c = some ((s.call c).1, f') ∧ f'.Reads (s.call c).2 ∧
      f'.sock.length ≤ f.sock.length := by
  by_cases hopen : s.Open
  · have heof := h.eof.trans hopen.1
    have herror := h.error.trans hopen.2
    have hunread := h.unread hopen.1 hopen.2
    cases c with
    | line size flush =>
        obtain ⟨ok, data, f', hread, hfewer, hline⟩ :=
          readLine_spec fuel f [] size flush h.sound heof herror hfuel
        rw [hunread] at hline
        unfold BufferedFile.call Stream.call
        dsimp only
        rw [hread]
        rcases Stream.line_cases s size with hover | ⟨hsize, hshort⟩ | ⟨hsize, hend⟩
        · obtain ⟨hok, heof', herror'⟩ := hline.overrun hover
          rw [Stream.readLine_overrun hopen hover]
          refine ⟨f', ?_, ⟨hline.sound, heof'.trans hopen.1.symm, herror', ?_⟩, hfewer⟩
          · simp [outcome, hok, heof', herror']
          · intro _ hfalse
            exact Bool.noConfusion hfalse
        · obtain ⟨hok, hdata, heof', hrest⟩ := hline.complete hsize hshort
          have herror' := hline.fits hsize
          rw [Stream.readLine_complete hopen hsize hshort]
          refine ⟨f', ?_, ⟨hline.sound, heof'.trans hopen.1.symm, herror'.trans hopen.2.symm,
            fun _ _ => hrest⟩, hfewer⟩
          simp [outcome, hok, hdata, heof', herror']
        · obtain ⟨hok, heof'⟩ := hline.ended hsize hend
          have herror' := hline.fits hsize
          rw [Stream.readLine_ended hopen hsize hend]
          refine ⟨f', ?_, ⟨hline.sound, heof', herror', ?_⟩, hfewer⟩
          · simp [outcome, hok, heof', herror']
          · intro hfalse
            exact Bool.noConfusion hfalse
    | block length =>
        obtain ⟨ok, data, f', hread, hfewer, hblock⟩ :=
          readBlock_spec fuel f [] length h.sound heof herror hfuel
        rw [hunread] at hblock
        have herror' := hblock.error
        unfold BufferedFile.call Stream.call
        dsimp only
        rw [hread]
        rcases Nat.lt_or_ge s.unread.length length with hlt | hle
        · obtain ⟨hok, heof'⟩ := hblock.ended hlt
          rw [Stream.readBlock_ended hopen hlt]
          refine ⟨f', ?_, ⟨hblock.sound, heof', herror', ?_⟩, hfewer⟩
          · simp [outcome, hok, heof', herror']
          · intro hfalse
            exact Bool.noConfusion hfalse
        · obtain ⟨hok, hdata, heof', hrest⟩ := hblock.complete hle
          rw [Stream.readBlock_complete hopen hle]
          refine ⟨f', ?_, ⟨hblock.sound, heof'.trans hopen.1.symm, herror'.trans hopen.2.symm,
            fun _ _ => hrest⟩, hfewer⟩
          simp [outcome, hok, hdata, heof', herror']
  · have hclosed := Stream.not_open hopen
    rw [Stream.call_closed hopen, ← h.eof, ← h.error]
    rw [← h.eof, ← h.error] at hclosed
    refine ⟨f, ?_, h, le_rfl⟩
    unfold BufferedFile.call
    cases c with
    | line size flush =>
        dsimp only
        rw [readLine_closed hclosed]
        rfl
    | block length =>
        dsimp only
        rw [readBlock_closed (by rw [hclosed]; rfl)]
        have hnot : (!f.eof && !f.error) = false := by
          rw [← Bool.not_or, hclosed]
          rfl
        simp [outcome, hnot]

theorem calls_reads {f : BufferedFile} {s : Stream} (h : f.Reads s) {fuel : ℕ}
    (hfuel : f.sock.length < fuel) (cs : List Call) :
    ∃ f', f.calls fuel cs = some ((s.calls cs).1, f') ∧ f'.Reads (s.calls cs).2 := by
  induction cs generalizing f s with
  | nil => exact ⟨f, rfl, h⟩
  | cons c cs ih =>
      obtain ⟨f₁, hcall, hreads, hfewer⟩ := call_reads h hfuel c
      obtain ⟨f₂, hcalls, hreads'⟩ := ih hreads (by omega)
      refine ⟨f₂, ?_, hreads'⟩
      simp [BufferedFile.calls, Stream.calls, hcall, hcalls]

/-- The stream of a new file is all that its socket will return. -/
theorem create_reads {sock : List (List Byte)} {inBufSize : ℕ}
    (h : ∀ chunk ∈ sock, 0 < chunk.length ∧ chunk.length ≤ inBufSize) :
    (createBufferedFile sock inBufSize).Reads ⟨sock.flatten, false, false⟩ :=
  ⟨⟨List.length_replicate, Nat.zero_le _, le_rfl, h⟩, rfl, rfl, fun _ _ => rfl⟩

/-- The outcomes of any calls are the same for every two ways to split a stream.  The bytes that the
calls have taken are the first of the stream, each of them once and in order, and a line is rejected
exactly if it is too long for the buffer of its caller. -/
theorem buffered_input_chunks {inBufSize : ℕ} {sock sock' : List (List Byte)}
    (hstream : sock.flatten = sock'.flatten)
    (hsock : ∀ chunk ∈ sock, 0 < chunk.length ∧ chunk.length ≤ inBufSize)
    (hsock' : ∀ chunk ∈ sock', 0 < chunk.length ∧ chunk.length ≤ inBufSize) {fuel : ℕ}
    (hfuel : sock.length < fuel) (hfuel' : sock'.length < fuel) (cs : List Call) :
    ∃ os f f' rest,
      (createBufferedFile sock inBufSize).calls fuel cs = some (os, f) ∧
      (createBufferedFile sock' inBufSize).calls fuel cs = some (os, f') ∧
      sock.flatten = Stream.allTaken cs os ++ rest ∧
      (f.eof = false → f.error = false → f.unread = rest ∧ f'.unread = rest) ∧
      ∀ before size flush after o, cs = before ++ .line size flush :: after →
        os[before.length]? = some o →
        (∀ p ∈ os.take before.length, p.eof = false ∧ p.error = false) →
        (o.error = true ↔ size ≤ (Stream.firstLine (sock.flatten.drop
          (Stream.allTaken before (os.take before.length)).length)).length + 1) := by
  have hreads := create_reads hsock
  have hreads' := create_reads hsock'
  rw [← hstream] at hreads'
  obtain ⟨f, hcalls, hf⟩ := calls_reads hreads hfuel cs
  obtain ⟨f', hcalls', hf'⟩ := calls_reads hreads' hfuel' cs
  generalize hstart : (⟨sock.flatten, false, false⟩ : Stream) = start at *
  have hopen : start.Open := by
    rw [← hstart]
    exact ⟨rfl, rfl⟩
  have hunread : start.unread = sock.flatten := by rw [← hstart]
  obtain ⟨rest, hrest, hleft⟩ := Stream.calls_taken hopen cs
  rw [hunread] at hrest
  refine ⟨_, f, f', rest, hcalls, hcalls', hrest, fun heof herror => ?_, ?_⟩
  · rw [hf.eof] at heof
    rw [hf.error] at herror
    have hend := hleft ⟨heof, herror⟩
    exact ⟨(hf.unread heof herror).trans hend, (hf'.unread heof herror).trans hend⟩
  · rintro before size flush after o rfl ho hbefore
    rw [Stream.calls_append] at ho hbefore ⊢
    dsimp only at ho hbefore ⊢
    have hlength := Stream.calls_length start before
    rw [List.take_left' hlength] at hbefore ⊢
    rw [List.getElem?_append_right (by omega), hlength, Nat.sub_self] at ho
    have hopen' := Stream.calls_open hopen before hbefore
    obtain ⟨left, hleft, hunread'⟩ := Stream.calls_taken hopen before
    rw [hunread] at hleft
    have ho' : ((start.calls before).2.readLine size).1 = o := by
      simpa [Stream.calls, Stream.call] using ho
    rw [hleft, List.drop_left, ← hunread' hopen', ← ho']
    exact Stream.readLine_rejects hopen' size

/-- A line and a byte after it, in two chunks and in three. -/
theorem buffered_input_chunks_two_three :
    ∃ os f f' rest,
      (createBufferedFile [[65], [66, 10, 67]] 4).calls 4 [.line 4 true, .block 1] = some (os, f) ∧
      (createBufferedFile [[65, 66], [10], [67]] 4).calls 4 [.line 4 true, .block 1] =
        some (os, f') ∧
      [65, 66, 10, 67] = Stream.allTaken [.line 4 true, .block 1] os ++ rest := by
  obtain ⟨os, f, f', rest, hcalls, hcalls', htaken, -⟩ :=
    @buffered_input_chunks 4 [[65], [66, 10, 67]] [[65, 66], [10], [67]] rfl (by decide)
      (by decide) 4 (by decide) (by decide) [.line 4 true, .block 1]
  exact ⟨os, f, f', rest, hcalls, hcalls', htaken⟩

end Mbf.Socket
