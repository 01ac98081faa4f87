import Mathlib.Data.Int.ModEq
import Mathlib.Data.List.Nodup
import Mathlib.Data.List.ProdSigma
import Mathlib.Tactic.Ring
import Mbf.Memory.Readout

/-! # The memory readout sends what was asked for

A readout asks for some turns, of each of them for some bunches, and of each of those for some
channels (`MemoryArgs.requested`).  The sample of a channel lies, modulo the size of the memory,
at the trigger origin moved by the turn offset, the position of the turn and bunch, and the
delay of the channel (`Capture.sample`).  The bytes sent are those samples in that order,
whatever the passes in which the memory is read and the data is written. -/

namespace Mbf.Memory

open Passes

/-! ### What is asked for -/

/-- The bunches asked for. -/
def MemoryArgs.bunches (bunchesPerTurn : ℕ) (args : MemoryArgs) : List ℕ :=
  if 0 ≤ args.bunch then [args.bunch.toNat] else List.range bunchesPerTurn

/-- The channels asked for. -/
def MemoryArgs.channels (args : MemoryArgs) : List (Fin 2) :=
  if 0 ≤ args.channel then [Fin.ofNat 2 args.channel.toNat] else [0, 1]

/-- The turns, bunches and channels asked for, in the order of the reply. -/
def MemoryArgs.requested (bunchesPerTurn : ℕ) (args : MemoryArgs) : List (ℕ × ℕ × Fin 2) :=
  List.range args.count ×ˢ (args.bunches bunchesPerTurn ×ˢ args.channels)

namespace Capture

/-- The sample of two bytes at an address. -/
def half (m : Capture) (address : ℤ) : Sample := m.byte (address + 1) ++ m.byte address

/-- The sample of a channel for a bunch of a turn, counted from the origin plus `offset` turns. -/
def sample (m : Capture) (offset : ℤ) (turn bunch : ℕ) (channel : Fin 2) : Sample :=
  m.half (m.triggerOrigin + 4 * (m.channelDelays channel +
    ((offset + turn) * m.bunchesPerTurn + bunch)) + 2 * channel.val)

/-! ### Addresses -/

variable (m : Capture)

/-- An address counts modulo the size of the memory. -/
theorem byte_congr {a b : ℤ} (h : a ≡ b [ZMOD dram0Length]) : m.byte a = m.byte b := by
  unfold byte
  congr 2
  rw [h.eq]

theorem sizeT_modEq (n : ℤ) : (sizeT n : ℤ) ≡ n [ZMOD dram0Length] := by
  have hdvd : (dram0Length : ℤ) ∣ 2 ^ 64 := by decide
  have hcast : (sizeT n : ℤ) = n % 2 ^ 64 := Int.toNat_of_nonneg (Int.emod_nonneg n (by decide))
  rw [hcast]
  exact (Int.mod_modEq n (2 ^ 64)).of_dvd hdvd

/-- Neither the product of 32 bits nor the sum of 64 bits loses any of the address. -/
theorem computeDramOffset_modEq (offset : ℤ) :
    (m.computeDramOffset offset : ℤ) ≡
      m.triggerOrigin + 4 * (offset * m.bunchesPerTurn) [ZMOD dram0Length] := by
  have hsum : (m.computeDramOffset offset : ℤ) ≡ m.triggerOrigin +
      sizeT ((offset * m.bunchesPerTurn * 4).bmod (2 ^ 32)) [ZMOD dram0Length] := by
    unfold computeDramOffset
    push_cast
    exact (Int.mod_modEq _ _).of_dvd (by decide)
  have hproduct : (offset * m.bunchesPerTurn * 4).bmod (2 ^ 32) ≡
      offset * m.bunchesPerTurn * 4 [ZMOD dram0Length] := by
    have h : (offset * m.bunchesPerTurn * 4).bmod (2 ^ 32) ≡
        offset * m.bunchesPerTurn * 4 [ZMOD (2 ^ 32 : ℕ)] := Int.bmod_emod
    exact h.of_dvd (by decide)
  calc (m.computeDramOffset offset : ℤ)
      ≡ m.triggerOrigin + sizeT ((offset * m.bunchesPerTurn * 4).bmod (2 ^ 32))
          [ZMOD dram0Length] := hsum
    _ ≡ m.triggerOrigin + offset * m.bunchesPerTurn * 4 [ZMOD dram0Length] :=
        ((sizeT_modEq _).trans hproduct).add_left _
    _ = m.triggerOrigin + 4 * (offset * m.bunchesPerTurn) := by ring

/-- The words of memory from an address on. -/
def words (address : ℤ) (n : ℕ) : List Word :=
  (List.range n).map fun i : ℕ => m.word (address + 4 * (i : ℤ))

theorem words_getElem? (address : ℤ) {n i : ℕ} (h : i < n) :
    (m.words address n)[i]? = some (m.word (address + 4 * i)) := by
  simp [words, h]

theorem word_congr {a b : ℤ} (h : a ≡ b [ZMOD dram0Length]) : m.word a = m.word b := by
  unfold word
  rw [m.byte_congr h, m.byte_congr (h.add_right 1), m.byte_congr (h.add_right 2),
    m.byte_congr (h.add_right 3)]

/-- A read that fits its buffer returns the words from the offset on. -/
theorem hwReadDramMemory_eq {capacity offset samples : ℕ} {address : ℤ}
    (hfits : samples ≤ capacity) (haddress : (offset : ℤ) ≡ address [ZMOD dram0Length]) :
    m.hwReadDramMemory capacity offset samples = some (m.words address samples) := by
  unfold hwReadDramMemory words
  rw [if_pos hfits]
  congr 1
  apply List.map_congr_left
  intro i _
  apply m.word_congr
  have hmask : offset &&& (dram0Length - 1) = offset % dram0Length :=
    Nat.and_two_pow_sub_one_eq_mod offset 31
  rw [hmask]
  push_cast
  exact ((Int.mod_modEq _ _).trans haddress).add_right _

/-- A word is its two samples. -/
theorem word_eq (a : ℤ) : m.word a = (m.half (a + 2) ++ m.half a : Word) := by
  have h : m.byte (a + 3) = m.byte (a + 2 + 1) := by rw [add_assoc]; rfl
  unfold word half
  rw [h]
  exact @BitVec.append_assoc _ _ _ (m.byte (a + 2 + 1) ++ m.byte (a + 2)) _ _

/-- `(int16_t) word`. -/
theorem word_low (a : ℤ) : (m.word a).setWidth 16 = m.half a := by
  rw [word_eq, BitVec.setWidth_append, dif_pos le_rfl, BitVec.setWidth_eq]

/-- `(int16_t) (word >> 16)`. -/
theorem word_high (a : ℤ) : ((m.word a) >>> 16).setWidth 16 = m.half (a + 2) := by
  rw [word_eq, BitVec.setWidth_ushiftRight_eq_extractLsb]
  exact BitVec.extractLsb'_append_eq_left

end Capture

/-! ### Extraction -/

/-- The loop emits what its items emit, if every pass does. -/
theorem drain_eq {σ : Type} {most unit left : ℕ} {body : ℕ → σ → Option (List Byte × σ)}
    {f : ℕ → List Byte} {s : σ} (st : ℕ → σ) (hs : st 0 = s) (hmost : 0 < most)
    (hunit : unit ∣ most) (hleft : unit ∣ left)
    (hbody : ∀ i m, unit ∣ i → unit ∣ m → m ≤ most → i + m ≤ left →
      body m (st i) = some (((List.range m).flatMap fun k => f (i + k)), st (i + m))) :
    drain most left s body = some ((List.range left).flatMap f) := by
  unfold drain
  rw [← hs, List.range_eq_range']
  refine passes_eq (n := left) hmost hunit (fun i m hi hm hle hn => ?_) left 0 left
    (dvd_zero unit) hleft (Nat.zero_add left).le le_rfl
  rw [hbody i m hi hm hle hn, List.range'_eq_map_range, List.flatMap_map]

section readout
variable {m : Capture} {args : MemoryArgs}

/-- The samples of the channels asked for, at the position of an address. -/
def Capture.samplesAt (m : Capture) (args : MemoryArgs) (address : ℤ) : List Sample :=
  args.channels.map fun channel => m.half (address + 4 * m.channelDelays channel + 2 * channel.val)

/-- The bytes of the samples at an address. -/
def Capture.bytesAt (m : Capture) (args : MemoryArgs) (address : ℤ) : List Byte :=
  (m.samplesAt args address).flatMap Sample.bytes

theorem makeChannelsContext_count (m : Capture) (args : MemoryArgs) :
    (makeChannelsContext m args.channel).count = args.channels.length := by
  unfold makeChannelsContext MemoryArgs.channels
  split_ifs <;> rfl

theorem channels_length_pos (args : MemoryArgs) :
    0 < args.channels.length ∧ args.channels.length ≤ 2 := by
  unfold MemoryArgs.channels
  split_ifs <;> simp

theorem Capture.samplesAt_length (m : Capture) (args : MemoryArgs) (address : ℤ) :
    (m.samplesAt args address).length = args.channels.length :=
  List.length_map _

/-- One bunch, if its delayed words are in the buffer. -/
theorem extractChannelsOneBunch_eq (h : args.Valid m.bunchesPerTurn) {address : ℤ} {n i : ℕ}
    (hi : ∀ channel, i + m.channelDelays channel < n) :
    extractChannelsOneBunch (m.words address n) i (makeChannelsContext m args.channel) =
      some (m.samplesAt args (address + 4 * i)) := by
  have hchannel := h.channel
  unfold memChannelCount at hchannel
  have h0 := m.words_getElem? address (hi 0)
  have h1 := m.words_getElem? address (hi 1)
  have ha : ∀ d : ℕ, address + 4 * ((i + d : ℕ) : ℤ) = address + 4 * i + 4 * d := by
    intro d
    push_cast
    ring
  rw [ha] at h0 h1
  obtain hc | hc | hc : args.channel = -1 ∨ args.channel = 0 ∨ args.channel = 1 := by omega
  all_goals simp [extractChannelsOneBunch, makeChannelsContext, Capture.samplesAt,
    MemoryArgs.channels, hc, h0, h1, Capture.word_low, Capture.word_high]

/-- What fits the write buffer is sent. -/
theorem writeSamples_eq {k : ℕ} {address : ℕ → ℤ} (hk : k ≤ writeBufferSize / args.channels.length) :
    writeSamples ((List.range k).flatMap fun i => m.samplesAt args (address i)) =
      some ((List.range k).flatMap fun i => m.bytesAt args (address i)) := by
  have hlength : ((List.range k).flatMap fun i => m.samplesAt args (address i)).length =
      k * args.channels.length := by
    simp [List.length_flatMap, Capture.samplesAt_length]
  have hfits := (Nat.le_div_iff_mul_le (channels_length_pos args).1).mp hk
  unfold writeSamples
  rw [hlength, if_pos hfits, List.flatMap_assoc]
  rfl

/-- A pass of the write buffer is not empty. -/
theorem maxSamples_pos (args : MemoryArgs) : 0 < writeBufferSize / args.channels.length := by
  obtain ⟨hpos, hle⟩ := channels_length_pos args
  apply Nat.div_pos _ hpos
  unfold writeBufferSize writeBufferBytes
  omega

/-- Words in order, if the delayed words of the last are in the buffer. -/
theorem extractChannels_eq (h : args.Valid m.bunchesPerTurn) (address : ℤ) (n start k : ℕ)
    (hn : ∀ channel, start + k + m.channelDelays channel ≤ n) :
    extractChannels (m.words address n) start k (makeChannelsContext m args.channel) =
      some ((List.range k).flatMap fun i : ℕ =>
        m.samplesAt args (address + 4 * ((start + i : ℕ) : ℤ))) := by
  apply collect_eq
  intro i hi
  exact extractChannelsOneBunch_eq h fun channel => by have := hn channel; omega

/-- One bunch of consecutive turns, if the delayed words of the last are in the buffer. -/
theorem computeBunchTurnData_eq (h : args.Valid m.bunchesPerTurn) (address : ℤ)
    (n start k : ℕ) (hn : ∀ channel, ∀ i < k,
      start + i * m.bunchesPerTurn + m.channelDelays channel < n) :
    computeBunchTurnData m.bunchesPerTurn (m.words address n) start k
        (makeChannelsContext m args.channel) =
      some ((List.range k).flatMap fun i : ℕ =>
        m.samplesAt args (address + 4 * ((start + i * m.bunchesPerTurn : ℕ) : ℤ))) := by
  apply collect_eq
  intro i hi
  exact extractChannelsOneBunch_eq h fun channel => hn channel i hi

theorem sendInt16MemoryData_eq (h : args.Valid m.bunchesPerTurn) (address : ℤ)
    {readSamples n : ℕ} (hn : ∀ channel, readSamples + m.channelDelays channel ≤ n) :
    sendInt16MemoryData (makeChannelsContext m args.channel) (m.words address n) readSamples =
      some ((List.range readSamples).flatMap fun i : ℕ =>
        m.bytesAt args (address + 4 * (i : ℤ))) := by
  unfold sendInt16MemoryData
  simp only [makeChannelsContext_count]
  refine drain_eq (fun i => i) rfl (maxSamples_pos args) (one_dvd _) (one_dvd _)
    fun i k _ _ hk hik => ?_
  have hsamples := extractChannels_eq h address n i k fun channel => by
    have := hn channel
    omega
  simp only [hsamples, writeSamples_eq hk, Option.bind_eq_bind, Option.bind_some, Option.pure_def]

theorem sendBunchMemoryData_eq (h : args.Valid m.bunchesPerTurn) (address : ℤ)
    {bunch turns n : ℕ} (hbunch : bunch < m.bunchesPerTurn)
    (hn : ∀ channel, turns * m.bunchesPerTurn + m.channelDelays channel ≤ n) :
    sendBunchMemoryData m.bunchesPerTurn (makeChannelsContext m args.channel) bunch
        (m.words address n) (turns * m.bunchesPerTurn) =
      some ((List.range turns).flatMap fun turn : ℕ =>
        m.bytesAt args (address + 4 * ((turn * m.bunchesPerTurn + bunch : ℕ) : ℤ))) := by
  unfold sendBunchMemoryData
  simp only [makeChannelsContext_count, Nat.mul_div_cancel turns (Nat.zero_lt_of_lt hbunch)]
  refine drain_eq (fun i => i * m.bunchesPerTurn) (Nat.zero_mul _) (maxSamples_pos args)
    (one_dvd _) (one_dvd _) fun i k _ _ hk hik => ?_
  have hsamples := computeBunchTurnData_eq h address n (i * m.bunchesPerTurn + bunch) k ?_
  · have hposition : ∀ j, i * m.bunchesPerTurn + bunch + j * m.bunchesPerTurn =
        (i + j) * m.bunchesPerTurn + bunch := fun j => by ring
    simp only [hsamples, writeSamples_eq hk, Option.bind_eq_bind, Option.bind_some,
      Option.pure_def, hposition, Nat.add_mul]
  · intro channel j hj
    have hlast : (i + j + 1) * m.bunchesPerTurn ≤ turns * m.bunchesPerTurn :=
      Nat.mul_le_mul_right _ (by omega)
    have hchannel := hn channel
    have hturn : (i + j + 1) * m.bunchesPerTurn =
        i * m.bunchesPerTurn + j * m.bunchesPerTurn + m.bunchesPerTurn := by ring
    omega

/-! ### The whole readout -/

/-- The address the turn offset is at, not yet reduced to the size of the memory. -/
def Capture.origin (m : Capture) (args : MemoryArgs) : ℤ :=
  m.triggerOrigin + 4 * (args.offset * m.bunchesPerTurn)

/-- The bytes sent for word `k` from the turn offset on. -/
def Capture.emitted (m : Capture) (args : MemoryArgs) (k : ℕ) : List Byte :=
  if 0 ≤ args.bunch → k % m.bunchesPerTurn = args.bunch.toNat then
    m.bytesAt args (m.origin args + 4 * (k : ℤ))
  else []

/-- Of a whole number of turns, one bunch of each is sent. -/
theorem emitted_turns (hb : 0 ≤ args.bunch) (hbunch : args.bunch.toNat < m.bunchesPerTurn)
    {i turns : ℕ} (hi : m.bunchesPerTurn ∣ i) :
    ((List.range (turns * m.bunchesPerTurn)).flatMap fun k => m.emitted args (i + k)) =
      (List.range turns).flatMap fun turn : ℕ =>
        m.bytesAt args (m.origin args + 4 * (i : ℤ) +
          4 * ((turn * m.bunchesPerTurn + args.bunch.toNat : ℕ) : ℤ)) := by
  rw [range_mul_flatMap]
  apply List.flatMap_congr
  intro turn _
  have hturn : ∀ j ∈ List.range m.bunchesPerTurn,
      m.emitted args (i + (turn * m.bunchesPerTurn + j)) =
        if j = args.bunch.toNat then
          m.bytesAt args (m.origin args + 4 * (i : ℤ) +
            4 * ((turn * m.bunchesPerTurn + j : ℕ) : ℤ))
        else [] := by
    intro j hj
    obtain ⟨q, rfl⟩ := hi
    have hmod : (m.bunchesPerTurn * q + (turn * m.bunchesPerTurn + j)) % m.bunchesPerTurn = j := by
      rw [Nat.mul_add_mod, Nat.mul_comm turn, Nat.mul_add_mod,
        Nat.mod_eq_of_lt (List.mem_range.mp hj)]
    have haddress : ∀ x : ℤ,
        x + 4 * ((m.bunchesPerTurn * q + (turn * m.bunchesPerTurn + j) : ℕ) : ℤ) =
          x + 4 * ((m.bunchesPerTurn * q : ℕ) : ℤ) + 4 * ((turn * m.bunchesPerTurn + j : ℕ) : ℤ) := by
      intro x
      push_cast
      ring
    unfold Capture.emitted
    simp only [hmod, hb, haddress, true_imp_iff]
  rw [List.flatMap_congr hturn]
  exact range_flatMap_single _ hbunch

/-- Without a bunch, every word is sent. -/
theorem emitted_all (hb : ¬ 0 ≤ args.bunch) (i k : ℕ) :
    m.emitted args (i + k) =
      m.bytesAt args (m.origin args + 4 * (i : ℤ) +
        4 * (k : ℤ)) := by
  have haddress : ∀ x : ℤ, x + 4 * ((i + k : ℕ) : ℤ) = x + 4 * (i : ℤ) + 4 * (k : ℤ) := by
    intro x
    push_cast
    ring
  unfold Capture.emitted
  rw [if_pos fun h => absurd h hb, haddress]

variable {σ : Type} {reduction : Reduction σ}

/-- A pass that starts at word `i` reads from the address of that word. -/
theorem hwReadDramMemory_pass {readBufferSize i k : ℕ} (hk : k ≤ readBufferSize) :
    m.hwReadDramMemory (readBufferSize + m.bunchesPerTurn)
        ((m.computeDramOffset args.offset + i * 4) % 2 ^ 64) (k + m.bunchesPerTurn) =
      some (m.words (m.origin args + 4 * (i : ℤ)) (k + m.bunchesPerTurn)) := by
  apply m.hwReadDramMemory_eq (Nat.add_le_add_right hk _)
  push_cast
  refine ((Int.mod_modEq _ _).of_dvd (by decide)).trans ?_
  rw [mul_comm (i : ℤ)]
  exact (m.computeDramOffset_modEq args.offset).add_right _

/-- The passes through the memory send every word that is asked for, in order. -/
theorem sendMemoryData_eq (reduction : Reduction σ) (h : args.Valid m.bunchesPerTurn)
    (hformat : args.format = .int16)
    (hdelays : ∀ channel, m.channelDelays channel < m.bunchesPerTurn) {readBufferSize : ℕ}
    (hsize : 0 < readBufferSize) (hturns : 0 ≤ args.bunch → m.bunchesPerTurn ∣ readBufferSize)
    (hcount : args.count * m.bunchesPerTurn < 2 ^ 32) :
    sendMemoryData reduction m readBufferSize args (makeChannelsContext m args.channel) =
      some ((List.range (args.count * m.bunchesPerTurn)).flatMap (m.emitted args)) := by
  have hsamples : args.count * m.bunchesPerTurn * args.decimation % 2 ^ 32 =
      args.count * m.bunchesPerTurn := by
    rw [h.undecimated hformat, Nat.mul_one, Nat.mod_eq_of_lt hcount]
  have hroom : ∀ k channel, k + m.channelDelays channel ≤ k + m.bunchesPerTurn :=
    fun k channel => Nat.add_le_add_left (hdelays channel).le k
  have hnext : ∀ i k, ((m.computeDramOffset args.offset + i * 4) % 2 ^ 64 + k * 4) % 2 ^ 64 =
      (m.computeDramOffset args.offset + (i + k) * 4) % 2 ^ 64 := by
    intro i k
    rw [Nat.mod_add_mod, Nat.add_mul, Nat.add_assoc]
  have hstart : (m.computeDramOffset args.offset + 0 * 4) % 2 ^ 64 =
      m.computeDramOffset args.offset := by
    rw [Nat.zero_mul, Nat.add_zero, Nat.mod_eq_of_lt]
    exact Nat.mod_lt _ (by decide)
  unfold sendMemoryData
  simp only [hsamples]
  by_cases hb : 0 ≤ args.bunch
  · refine drain_eq (fun i => ((m.computeDramOffset args.offset + i * 4) % 2 ^ 64,
      reduction.prepare args (makeChannelsContext m args.channel))) (by rw [hstart]) hsize
      (hturns hb) (Nat.dvd_mul_left _ _) fun i k hi hk hle _ => ?_
    obtain ⟨turns, rfl⟩ := exists_eq_mul_left_of_dvd hk
    have hbunch : args.bunch.toNat < m.bunchesPerTurn := by
      have := h.bunch.2
      omega
    have hsend := sendBunchMemoryData_eq h (m.origin args + 4 * (i : ℤ)) hbunch
      (hroom (turns * m.bunchesPerTurn))
    simp only [hwReadDramMemory_pass hle, hb, hsend, hnext, emitted_turns hb hbunch hi,
      Option.bind_eq_bind, Option.bind_some, Option.map_some, Option.pure_def, if_true]
  · refine drain_eq (fun i => ((m.computeDramOffset args.offset + i * 4) % 2 ^ 64,
      reduction.prepare args (makeChannelsContext m args.channel))) (by rw [hstart]) hsize
      (one_dvd _) (one_dvd _) fun i k _ _ hle _ => ?_
    have hsend := sendInt16MemoryData_eq h (m.origin args + 4 * (i : ℤ)) (hroom k)
    simp only [hwReadDramMemory_pass hle, hb, hformat, hsend, hnext, emitted_all hb,
      Option.bind_eq_bind, Option.bind_some, Option.map_some, Option.pure_def, if_false]

/-! ### The reply -/

/-- The data of the reply. -/
def Capture.data (m : Capture) (args : MemoryArgs) : List Byte :=
  (args.requested m.bunchesPerTurn).flatMap fun (turn, bunch, channel) =>
    (m.sample args.offset turn bunch channel).bytes

theorem data_eq (m : Capture) (args : MemoryArgs) :
    m.data args = (List.range args.count).flatMap fun turn =>
      (args.bunches m.bunchesPerTurn).flatMap fun bunch =>
        args.channels.flatMap fun channel => (m.sample args.offset turn bunch channel).bytes := by
  unfold Capture.data MemoryArgs.requested
  simp only [SProd.sprod, List.product, List.flatMap_assoc, List.flatMap_map]

/-- The word of a bunch of a turn holds the samples of that bunch. -/
theorem bytesAt_position (m : Capture) (args : MemoryArgs) (turn bunch : ℕ) :
    m.bytesAt args (m.origin args + 4 * ((turn * m.bunchesPerTurn + bunch : ℕ) : ℤ)) =
      args.channels.flatMap fun channel => (m.sample args.offset turn bunch channel).bytes := by
  unfold Capture.bytesAt Capture.samplesAt Capture.sample Capture.origin
  rw [List.flatMap_map]
  apply List.flatMap_congr
  intro channel _
  congr 2
  push_cast
  ring

/-- The words that are sent are those of the turns and bunches asked for. -/
theorem emitted_eq_data (h : args.Valid m.bunchesPerTurn) :
    (List.range (args.count * m.bunchesPerTurn)).flatMap (m.emitted args) = m.data args := by
  rw [data_eq, range_mul_flatMap]
  apply List.flatMap_congr
  intro turn _
  have hword : ∀ j ∈ List.range m.bunchesPerTurn, m.emitted args (turn * m.bunchesPerTurn + j) =
      if 0 ≤ args.bunch → j = args.bunch.toNat then
        args.channels.flatMap fun channel => (m.sample args.offset turn j channel).bytes
      else [] := by
    intro j hj
    have hmod : (turn * m.bunchesPerTurn + j) % m.bunchesPerTurn = j := by
      rw [Nat.mul_comm, Nat.mul_add_mod, Nat.mod_eq_of_lt (List.mem_range.mp hj)]
    unfold Capture.emitted
    rw [hmod, bytesAt_position]
  rw [List.flatMap_congr hword]
  unfold MemoryArgs.bunches
  by_cases hb : 0 ≤ args.bunch
  · have hbunch : args.bunch.toNat < m.bunchesPerTurn := by
      have := h.bunch.2
      omega
    simp only [hb, true_imp_iff, if_true, List.flatMap_singleton]
    exact range_flatMap_single _ hbunch
  · simp only [hb, false_imp_iff, if_true, if_false]

theorem mem_bunches (h : args.Valid m.bunchesPerTurn) {bunch : ℕ} :
    bunch ∈ args.bunches m.bunchesPerTurn ↔
      bunch < m.bunchesPerTurn ∧ (0 ≤ args.bunch → args.bunch = bunch) := by
  have := h.bunch
  unfold MemoryArgs.bunches
  split_ifs with hb
  · rw [List.mem_singleton]
    omega
  · rw [List.mem_range]
    omega

theorem mem_channels (h : args.Valid m.bunchesPerTurn) {channel : Fin 2} :
    channel ∈ args.channels ↔ (0 ≤ args.channel → args.channel = channel.val) := by
  have := h.channel
  unfold memChannelCount at this
  unfold MemoryArgs.channels
  split_ifs with hc
  · rw [List.mem_singleton, Fin.ext_iff, Fin.val_ofNat]
    omega
  · have hall : ∀ c : Fin 2, c ∈ ([0, 1] : List (Fin 2)) := by decide
    simp only [hall, hc, false_imp_iff]

theorem requested_nodup (args : MemoryArgs) (bunchesPerTurn : ℕ) :
    (args.requested bunchesPerTurn).Nodup := by
  have hbunches : (args.bunches bunchesPerTurn).Nodup := by
    unfold MemoryArgs.bunches
    split_ifs
    · exact List.nodup_singleton _
    · exact List.nodup_range
  have hchannels : args.channels.Nodup := by
    unfold MemoryArgs.channels
    split_ifs
    · exact List.nodup_singleton _
    · decide
  exact List.nodup_range.product (hbunches.product hchannels)

theorem requested_length (args : MemoryArgs) (bunchesPerTurn : ℕ) :
    (args.requested bunchesPerTurn).length =
      args.count * ((args.bunches bunchesPerTurn).length * args.channels.length) := by
  unfold MemoryArgs.requested
  rw [List.length_product, List.length_product, List.length_range]

theorem data_length (m : Capture) (args : MemoryArgs) :
    (m.data args).length = 2 * (args.requested m.bunchesPerTurn).length := by
  have hbytes : ∀ s : Sample, s.bytes.length = 2 := fun _ => rfl
  unfold Capture.data
  simp [List.length_flatMap, hbytes, Nat.mul_comm]

/-- The read buffer has room for some words, for whole turns if only one bunch is sent, and with
the extra turn it has the size it may have. -/
theorem computeReadBufferSize_spec (hformat : args.format = .int16) {bunchesPerTurn size : ℕ}
    (hpos : 0 < bunchesPerTurn) (hle : bunchesPerTurn ≤ 2048)
    (h : computeReadBufferSize bunchesPerTurn args = .ok size) :
    0 < size ∧ (0 ≤ args.bunch → bunchesPerTurn ∣ size) ∧
      4 * (size + bunchesPerTurn) ≤ readBufferBytes := by
  unfold computeReadBufferSize at h
  simp only [hformat, ne_eq, not_true, if_false] at h
  have hbytes : readBufferBytes / 4 = 262128 := rfl
  have hfour : 4 * (readBufferBytes / 4) = readBufferBytes := rfl
  split_ifs at h with hb
  · have hsize : (readBufferBytes / 4 - bunchesPerTurn) / bunchesPerTurn * bunchesPerTurn = size := by
      cases h
      rfl
    have hquot : 0 < (readBufferBytes / 4 - bunchesPerTurn) / bunchesPerTurn :=
      Nat.div_pos (by omega) hpos
    have hround := Nat.div_mul_le_self (readBufferBytes / 4 - bunchesPerTurn) bunchesPerTurn
    refine ⟨hsize ▸ Nat.mul_pos hquot hpos, fun _ => hsize ▸ Nat.dvd_mul_left _ _, ?_⟩
    omega
  · have hsize : readBufferBytes / 4 - bunchesPerTurn = size := by
      cases h
      rfl
    exact ⟨by omega, fun h => absurd h hb, by omega⟩

/-- What a command has passed that is accepted. -/
theorem checkMemoryCommand_ok {strtod : List Char → Float × List Char × Bool}
    {waitForLock : LockParse → Except Error Unit} {rawMode : Bool} {command : List Char}
    {size : ℕ} (h : checkMemoryCommand strtod waitForLock m rawMode command = .ok (args, size)) :
    parseMemoryArgs strtod m.bunchesPerTurn rawMode command = .ok args ∧
      args.count ≤ dram0Length / 4 / m.bunchesPerTurn / args.decimation ∧
      computeReadBufferSize m.bunchesPerTurn args = .ok size := by
  unfold checkMemoryCommand at h
  simp only [bind, Except.bind, pure, throw, throwThe, MonadExceptOf.throw] at h
  split at h
  · cases h
  · next parsed hparsed =>
      split at h
      · cases h
      · next hcount =>
          split at h
          · cases h
          · next allowed hallowed =>
              split at h
              · cases h
              · cases h
                exact ⟨hparsed, not_lt.mp hcount, hallowed⟩

/-- What the checks leave to rely on. -/
theorem checkMemoryCommand_spec {strtod : List Char → Float × List Char × Bool}
    {waitForLock : LockParse → Except Error Unit} {rawMode : Bool} {command : List Char}
    {size : ℕ} (h : checkMemoryCommand strtod waitForLock m rawMode command = .ok (args, size)) :
    args.Valid m.bunchesPerTurn ∧
      args.count ≤ dram0Length / 4 / m.bunchesPerTurn / args.decimation ∧
      computeReadBufferSize m.bunchesPerTurn args = .ok size := by
  obtain ⟨hparsed, hcount, hallowed⟩ := checkMemoryCommand_ok h
  exact ⟨parseMemoryArgs_valid hparsed, hcount, hallowed⟩

variable {strtod : List Char → Float × List Char × Bool}
  {waitForLock : LockParse → Except Error Unit} {rawMode : Bool} {command : List Char} {size : ℕ}

/-- The number of samples that the header announces is the number asked for. -/
theorem announced_eq
    (hcount : args.count * m.bunchesPerTurn < 2 ^ 32) (hpos : 0 < m.bunchesPerTurn) :
    (memoryFrame m.bunchesPerTurn args).samples < 2 ^ 32 ∧
      (memoryFrame m.bunchesPerTurn args).samples * (memoryFrame m.bunchesPerTurn args).channels =
        (args.requested m.bunchesPerTurn).length := by
  have hle : args.count ≤ args.count * m.bunchesPerTurn := Nat.le_mul_of_pos_right _ hpos
  rw [requested_length, ← Nat.mul_assoc]
  unfold memoryFrame MemoryArgs.bunches MemoryArgs.channels
  constructor
  · dsimp only
    split_ifs
    · omega
    · exact Nat.mod_lt _ (by decide)
  · dsimp only
    rw [Nat.mod_eq_of_lt hcount]
    split_ifs <;> simp

/-- The memory command.  A command that passes the checks, without decimation or tune shift, is
answered in full: with the announcement if it asks for one, and then with the bytes of the
samples it asks for, each of them once and in order.  No read exceeds the read buffer, which
together with the extra turn has at most `READ_BUFFER_BYTES`. -/
theorem memory_command_correct (hbunches : m.bunchesPerTurn ≤ 2048)
    (hdelays : ∀ channel, m.channelDelays channel < m.bunchesPerTurn)
    (hcheck : checkMemoryCommand strtod waitForLock m rawMode command = .ok (args, size))
    (hformat : args.format = .int16) :
    processMemoryCommand reduction strtod waitForLock m rawMode command =
        some (.ok ((if rawMode then [] else [0]) ++
          (if args.framed then (memoryFrame m.bunchesPerTurn args).bytes else []) ++
          m.data args)) ∧
      ((args.requested m.bunchesPerTurn).Nodup ∧
        ∀ turn bunch channel, (turn, bunch, channel) ∈ args.requested m.bunchesPerTurn ↔
          turn < args.count ∧
            (bunch < m.bunchesPerTurn ∧ (0 ≤ args.bunch → args.bunch = bunch)) ∧
            (0 ≤ args.channel → args.channel = channel.val)) ∧
      4 * (size + m.bunchesPerTurn) ≤ readBufferBytes ∧
      (memoryFrame m.bunchesPerTurn args).samples < 2 ^ 32 ∧
      2 * ((memoryFrame m.bunchesPerTurn args).samples *
        (memoryFrame m.bunchesPerTurn args).channels) = (m.data args).length := by
  obtain ⟨hvalid, hcount, hbuffer⟩ := checkMemoryCommand_spec hcheck
  have hpos : 0 < m.bunchesPerTurn := Nat.zero_lt_of_lt (hdelays 0)
  obtain ⟨hsize, hturns, hbytes⟩ := computeReadBufferSize_spec hformat hpos hbunches hbuffer
  have hsamples : args.count * m.bunchesPerTurn < 2 ^ 32 := by
    rw [hvalid.undecimated hformat, Nat.div_one, Nat.le_div_iff_mul_le hpos] at hcount
    have hmemory : dram0Length / 4 < 2 ^ 32 := by decide
    omega
  obtain ⟨hannounced, hlength⟩ := announced_eq hsamples hpos
  refine ⟨?_, ⟨requested_nodup args _, fun turn bunch channel => ?_⟩, hbytes, hannounced, ?_⟩
  · have hsend := sendMemoryData_eq reduction hvalid hformat hdelays hsize hturns
      hsamples
    rw [emitted_eq_data hvalid] at hsend
    unfold processMemoryCommand
    simp only [hcheck, hsend, Option.bind_eq_bind, Option.bind_some, Option.pure_def]
  · unfold MemoryArgs.requested
    rw [List.mem_product, List.mem_product, List.mem_range, mem_bunches hvalid,
      mem_channels hvalid]
  · rw [hlength, data_length]

/-- Two turns of two bunches that start two words before the end of the memory, whose bytes count
their addresses; the second channel is one bunch late. -/
theorem memory_command_correct_wrap :
    processMemoryCommand (σ := Unit) ⟨fun _ _ => (), fun _ _ _ _ _ => none⟩ (fun s => (0, s, false))
        (fun _ => .ok ()) ⟨fun a => BitVec.ofNat 8 a.val, 0, Fin.val, 2⟩ false
        ['2', 'F', 'O', '-', '1'] =
      some (.ok ([0] ++ [4, 0, 0, 0, 2, 0, 0, 0] ++
        [248, 249, 254, 255, 252, 253, 2, 3, 0, 1, 6, 7, 4, 5, 10, 11])) := by
  have hcheck : checkMemoryCommand (fun s => (0, s, false)) (fun _ => .ok ())
      ⟨fun a => BitVec.ofNat 8 a.val, 0, Fin.val, 2⟩ false ['2', 'F', 'O', '-', '1'] =
        .ok (⟨2, true, -1, -1, -1, 1, 0, ⟨false, 0⟩, .int16⟩, 262126) := rfl
  rw [(memory_command_correct (by decide) (by decide) hcheck rfl).1]
  have hdata : Capture.data ⟨fun a => BitVec.ofNat 8 a.val, 0, Fin.val, 2⟩
      ⟨2, true, -1, -1, -1, 1, 0, ⟨false, 0⟩, .int16⟩ =
        [248, 249, 254, 255, 252, 253, 2, 3, 0, 1, 6, 7, 4, 5, 10, 11] := by decide +kernel
  rw [hdata]
  rfl

end readout

end Mbf.Memory
