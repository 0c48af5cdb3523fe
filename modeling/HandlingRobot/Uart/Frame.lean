import Mathlib.Data.List.Basic
import Mathlib.Data.List.Range
import Mathlib.Tactic.Ring

/-! # The receive window of the serial link

The camera board sends 21-byte packets `$…\n` back to back. `LPUART8` delivers the byte stream in
windows of two packet lengths, at whatever phase the receiver happened to start, and
`uart8_mb_recv` looks in such a window for the first `'$'` that has a line feed 20 bytes later.

* **`scanFrame`** — the scan `while (i <= PACK_LEN)`; **`uart8MbRecv`** — the whole thread step.
* **`Packet`** — a well-formed packet: header, trailer and no other byte of either kind.
* **`Window`** — 42 consecutive bytes of a packet stream, any phase.

Reads of the window are checked (`data[i]?`): a run that ends in `some` has read indices
`0..41` only. -/

namespace HandlingRobot

/-- `PACK_LEN`: the length of one packet. -/
def packLen : ℕ := 21

/-- The header byte `'$'`. -/
def headByte : UInt8 := 36

/-- The trailer byte `'\n'`. -/
def tailByte : UInt8 := 10

/-! ## The scan -/

/-- The scan loop of `uart8_mb_recv` at index `i` with `n` iterations to go: it leaves the loop at
the first `i` with `data[i] == '$' && data[i + PACK_LEN - 1] == '\n'`, or with `i = PACK_LEN + 1`.
The second read happens only when the first one matched. A read outside `data` is `none`. -/
def scanFrame (data : List UInt8) : ℕ → ℕ → Option ℕ
  | 0, i => some i
  | n + 1, i => do
      let b ← data[i]?
      if b = headByte then
        let e ← data[i + packLen - 1]?
        if e = tailByte then some i else scanFrame data n (i + 1)
      else scanFrame data n (i + 1)

/-- The copy loop `uart_buff[cnt] = data[cnt + i]` for `cnt < PACK_LEN`. -/
def copyFrame (data : List UInt8) (i : ℕ) : Option (List UInt8) :=
  (List.range packLen).mapM fun cnt => data[cnt + i]?

/-- The values of `car.uart`: `SP_OK`, `SP_HEADER_ERR`, `SP_TAIL_ERR` and `SP_WAIT`. -/
inductive SpStatus
  | ok | headerErr | tailErr | wait
  deriving Repr, DecidableEq

/-- The number a status is sent as: `SP_OK = 1`, `SP_HEADER_ERR = -1`, `SP_TAIL_ERR = -2`,
`SP_WAIT = 0`. -/
def SpStatus.code : SpStatus → ℤ
  | ok => 1
  | headerErr => -1
  | tailErr => -2
  | wait => 0

/-- What one turn of `uart8_mb_recv` leaves: the frame copied to `uart_buff`, if there was one, and
the new `car.uart`. -/
structure RecvResult where
  /-- The new contents of `uart_buff`; `none` when the buffer is left as it was. -/
  uartBuff : Option (List UInt8)
  /-- The new value of `car.uart`. -/
  uart : SpStatus
  deriving Repr, DecidableEq

/-- **One turn of `uart8_mb_recv`** on the window its mail points to, if this stays as it is
meanwhile: scan, and copy the frame when the scan stopped at `i <= PACK_LEN`. -/
def uart8MbRecv (data : List UInt8) : Option RecvResult := do
  let i ← scanFrame data (packLen + 1) 0
  if i ≤ packLen then
    let frame ← copyFrame data i
    some ⟨some frame, .ok⟩
  else
    some ⟨none, .headerErr⟩

/-! ## Packets and windows -/

/-- **A well-formed packet**: 21 bytes, `'$'` first, a line feed last, neither in between. -/
structure Packet where
  /-- The bytes on the wire. -/
  bytes : List UInt8
  length_eq : bytes.length = packLen
  head_iff : ∀ i (h : i < bytes.length), bytes[i] = headByte ↔ i = 0
  tail_iff : ∀ i (h : i < bytes.length), bytes[i] = tailByte ↔ i = packLen - 1

/-- The packet `$&X700.0Y500.0N020.0\n`, a picture position. -/
def Packet.position : Packet where
  bytes := [36, 38, 88, 55, 48, 48, 46, 48, 89, 53, 48, 48, 46, 48, 78, 48, 50, 48, 46, 48, 10]
  length_eq := rfl
  head_iff := by decide
  tail_iff := by decide

/-- The packet `$#A001.0AAAAAAAAAAAA\n`, the class of a picture. -/
def Packet.category : Packet where
  bytes := [36, 35, 65, 48, 48, 49, 46, 48, 65, 65, 65, 65, 65, 65, 65, 65, 65, 65, 65, 65, 10]
  length_eq := rfl
  head_iff := by decide
  tail_iff := by decide

/-- The bytes of a packet sequence as they travel. -/
def wire (ps : List Packet) : List UInt8 := (ps.map Packet.bytes).flatten

/-- **A receive window**: `2 * PACK_LEN` consecutive bytes of a packet stream, starting at any
byte. -/
structure Window where
  /-- The packets on the wire. -/
  packets : List Packet
  /-- The first byte of the window. -/
  start : ℕ
  fits : start + 2 * packLen ≤ (wire packets).length

/-- The window of a packet sent twice, from its header on. -/
def Window.repeated (p : Packet) : Window where
  packets := [p, p]
  start := 0
  fits := by simp [wire, p.length_eq, packLen]

/-- The 42 bytes a window holds in `uart8_rx_buffer`. -/
def Window.data (w : Window) : List UInt8 := ((wire w.packets).drop w.start).take (2 * packLen)

/-- The index of the first packet that begins at or after the window's start. -/
def Window.first (w : Window) : ℕ := (w.start + packLen - 1) / packLen

/-- A stream of `n` packets has `21 * n` bytes. -/
theorem length_wire (ps : List Packet) : (wire ps).length = packLen * ps.length := by
  induction ps with
  | nil => rfl
  | cons p ps ih =>
      have h : (wire (p :: ps)).length = p.bytes.length + (wire ps).length := by simp [wire]
      rw [h, ih, p.length_eq, List.length_cons]
      ring

/-- Byte `21 * j + i` of the stream is byte `i` of packet `j`. -/
theorem getElem?_wire (ps : List Packet) (j i : ℕ) (hi : i < packLen) (hj : j < ps.length) :
    (wire ps)[packLen * j + i]? = ps[j].bytes[i]? := by
  induction ps generalizing j with
  | nil => simp at hj
  | cons p ps ih =>
      have hw : wire (p :: ps) = p.bytes ++ wire ps := by simp [wire]
      rw [hw]
      cases j with
      | zero =>
          rw [Nat.mul_zero, Nat.zero_add, List.getElem?_append_left (by rw [p.length_eq]; exact hi)]
          rfl
      | succ j =>
          have hlen : p.bytes.length ≤ packLen * (j + 1) + i := by
            rw [p.length_eq, Nat.mul_succ]; omega
          rw [List.getElem?_append_right hlen, p.length_eq]
          have hsub : packLen * (j + 1) + i - packLen = packLen * j + i := by
            rw [Nat.mul_succ]; omega
          rw [hsub, ih j (by simpa using hj)]
          rfl

/-- A window holds 42 bytes. -/
theorem Window.length_data (w : Window) : w.data.length = 2 * packLen := by
  have h := w.fits
  simp only [Window.data, List.length_take, List.length_drop]
  omega

/-- Byte `i` of a window is byte `start + i` of the stream. -/
theorem Window.getElem?_data (w : Window) (i : ℕ) (hi : i < 2 * packLen) :
    w.data[i]? = (wire w.packets)[w.start + i]? := by
  rw [Window.data, List.getElem?_take_of_lt hi, List.getElem?_drop]

/-- The first packet that begins in the window lies wholly inside it. -/
theorem Window.first_bounds (w : Window) :
    w.start ≤ packLen * w.first ∧ packLen * w.first < w.start + packLen ∧
      w.first < w.packets.length := by
  have hf := w.fits
  rw [length_wire] at hf
  simp only [Window.first, packLen] at *
  omega

/-! ## The scan finds the first whole packet -/

/-- Byte `i` of packet `j`, with its number in the stream. -/
theorem wire_byte (ps : List Packet) (j i : ℕ) (hi : i < packLen) (hj : j < ps.length) :
    ∃ h : i < ps[j].bytes.length, (wire ps)[packLen * j + i]? = some ps[j].bytes[i] := by
  have hlen : i < ps[j].bytes.length := by rw [ps[j].length_eq]; exact hi
  exact ⟨hlen, by rw [getElem?_wire ps j i hi hj, List.getElem?_eq_getElem hlen]⟩

/-- A byte of the stream is a header byte exactly at the packet boundaries. -/
theorem wire_eq_head_iff (ps : List Packet) (k : ℕ) (hk : k < (wire ps).length) :
    ∃ b, (wire ps)[k]? = some b ∧ (b = headByte ↔ packLen ∣ k) := by
  rw [length_wire] at hk
  have hdm : packLen * (k / packLen) + k % packLen = k := Nat.div_add_mod k packLen
  have hmod : k % packLen < packLen := Nat.mod_lt _ (by decide)
  have hj : k / packLen < ps.length := Nat.div_lt_of_lt_mul hk
  obtain ⟨hlen, hb⟩ := wire_byte ps (k / packLen) (k % packLen) hmod hj
  rw [hdm] at hb
  refine ⟨_, hb, ?_⟩
  rw [(ps[k / packLen]).head_iff _ hlen, Nat.dvd_iff_mod_eq_zero]

/-- The scan stops at the first header byte, when the trailer byte stands where it should. -/
theorem scanFrame_eq (data : List UInt8) (a : ℕ) :
    ∀ n i, a < n →
      (∀ k < a, ∃ b, data[i + k]? = some b ∧ b ≠ headByte) →
      data[i + a]? = some headByte → data[i + a + packLen - 1]? = some tailByte →
      scanFrame data n i = some (i + a) := by
  -- byte after byte, until the packet starts
  induction a with
  | zero =>
      intro n i hn _ hhead htail
      obtain ⟨n, rfl⟩ := Nat.exists_eq_succ_of_ne_zero (by omega : n ≠ 0)
      simp only [Nat.add_zero] at hhead htail
      simp [scanFrame, hhead, htail]
  | succ a ih =>
      intro n i hn hskip hhead htail
      obtain ⟨n, rfl⟩ := Nat.exists_eq_succ_of_ne_zero (by omega : n ≠ 0)
      obtain ⟨b, hb, hne⟩ := hskip 0 (Nat.succ_pos a)
      rw [Nat.add_zero] at hb
      have hnext : scanFrame data (n + 1) i = scanFrame data n (i + 1) := by
        simp [scanFrame, hb, hne]
      have hidx : i + 1 + a = i + (a + 1) := by omega
      rw [hnext, ih n (i + 1) (by omega) ?_ (by rw [hidx]; exact hhead) (by rw [hidx]; exact htail),
        hidx]
      intro k hk
      obtain ⟨b, hb, hne⟩ := hskip (k + 1) (by omega)
      exact ⟨b, by rw [show i + 1 + k = i + (k + 1) by omega]; exact hb, hne⟩

/-- The copy loop reads out a stretch of the window. -/
theorem copyFrame_eq (data frame : List UInt8) (i : ℕ) (hlen : frame.length = packLen)
    (h : ∀ k < packLen, data[k + i]? = frame[k]?) : copyFrame data i = some frame := by
  have hmap : ∀ l : List ℕ, (∀ k ∈ l, k < packLen) →
      l.mapM (fun cnt => data[cnt + i]?) = some (l.map fun k => frame.getD k 0) := by
    intro l hl
    induction l with
    | nil => rfl
    | cons k l ih =>
        have hk := hl k List.mem_cons_self
        have hk' : k < frame.length := hlen ▸ hk
        rw [List.mapM_cons, h k hk, ih fun x hx => hl x (List.mem_cons_of_mem k hx)]
        simp [List.getElem?_eq_getElem hk']
  rw [copyFrame, hmap _ fun k hk => List.mem_range.mp hk]
  congr 1
  apply List.ext_getElem
  · simp [hlen]
  · intro k h₁ h₂
    simp [List.getElem?_eq_getElem h₂]

/-- The packet a window carries: the first one that lies wholly inside it. -/
def Window.packet (w : Window) : Packet := w.packets.get ⟨w.first, w.first_bounds.2.2⟩

/-- Where in the window that packet begins. -/
def Window.offset (w : Window) : ℕ := packLen * w.first - w.start

/-- The scan of a window stops at the packet the window carries. -/
theorem Window.scanFrame_data (w : Window) :
    scanFrame w.data (packLen + 1) 0 = some w.offset := by
  obtain ⟨hlo, hhi, hj⟩ := w.first_bounds
  have hoff : w.start + w.offset = packLen * w.first := by rw [Window.offset]; omega
  have hlt : w.offset < packLen := by rw [Window.offset]; omega
  -- the first packet that starts in the window lies in it as a whole
  have h := scanFrame_eq w.data w.offset (packLen + 1) 0 (by omega) ?_ ?_ ?_
  · simpa using h
  · -- before the packet the window shows the rest of the previous one
    intro k hk
    have hin : w.start + k < (wire w.packets).length := by have := w.fits; omega
    obtain ⟨b, hb, hiff⟩ := wire_eq_head_iff w.packets (w.start + k) hin
    refine ⟨b, ?_, fun hhead => ?_⟩
    · rw [Nat.zero_add, w.getElem?_data k (by omega)]; exact hb
    · obtain ⟨q, hq⟩ := hiff.mp hhead
      have hlt' : packLen * q < packLen * w.first := by omega
      have : q < w.first := Nat.lt_of_mul_lt_mul_left hlt'
      have : packLen * (q + 1) ≤ packLen * w.first := Nat.mul_le_mul_left _ this
      rw [Nat.mul_succ] at this
      omega
  · obtain ⟨hlen, hb⟩ := wire_byte w.packets w.first 0 (by decide) hj
    rw [Nat.zero_add, w.getElem?_data _ (by omega), hoff]
    rw [Nat.add_zero] at hb
    rw [hb, (w.packets[w.first].head_iff 0 hlen).mpr rfl]
  · obtain ⟨hlen, hb⟩ := wire_byte w.packets w.first (packLen - 1) (by decide) hj
    rw [Nat.zero_add, w.getElem?_data _ (by simp only [packLen] at *; omega)]
    rw [show w.start + (w.offset + packLen - 1) = packLen * w.first + (packLen - 1) by
      simp only [packLen] at *; omega]
    rw [hb, (w.packets[w.first].tail_iff _ hlen).mpr rfl]

theorem Window.offset_lt (w : Window) : w.offset < packLen := by
  obtain ⟨hlo, hhi, -⟩ := w.first_bounds
  rw [Window.offset]
  omega

/-- From there on the window shows the packet. -/
theorem Window.getElem?_packet (w : Window) {k : ℕ} (hk : k < packLen) :
    w.data[k + w.offset]? = w.packet.bytes[k]? := by
  obtain ⟨hlo, hhi, hj⟩ := w.first_bounds
  have hlt := w.offset_lt
  have hidx : w.start + (k + w.offset) = packLen * w.first + k := by
    rw [Window.offset]
    omega
  rw [w.getElem?_data _ (by omega), hidx, getElem?_wire w.packets w.first k hk hj]
  rfl

/-- **The turn of the thread on a window** copies the packet the window carries. -/
theorem Window.uart8MbRecv_data (w : Window) :
    uart8MbRecv w.data = some ⟨some w.packet.bytes, .ok⟩ := by
  have hcopy : copyFrame w.data w.offset = some w.packet.bytes :=
    copyFrame_eq _ _ _ w.packet.length_eq fun _ hk => w.getElem?_packet hk
  rw [uart8MbRecv, w.scanFrame_data]
  simp only [Option.bind_eq_bind, Option.bind_some, if_pos w.offset_lt.le, hcopy]

/-- **Every window yields its first whole packet.** Whatever the phase, the scan of a 42-byte window
succeeds with reads inside the window only, and `uart_buff` receives, byte for byte, the packet
with the least number that lies wholly inside the window. -/
theorem uart8MbRecv_window (w : Window) :
    ∃ (j : ℕ) (hj : j < w.packets.length),
      (w.start ≤ packLen * j ∧ packLen * j + packLen ≤ w.start + 2 * packLen) ∧
      (∀ j', w.start ≤ packLen * j' → j ≤ j') ∧
      w.data.length = 42 ∧
      uart8MbRecv w.data = some ⟨some w.packets[j].bytes, .ok⟩ := by
  obtain ⟨hlo, hhi, hj⟩ := w.first_bounds
  refine ⟨w.first, hj, ⟨hlo, by omega⟩, fun j' hj' => ?_, w.length_data, w.uart8MbRecv_data⟩
  have hlt : packLen * w.first < packLen * (j' + 1) := by rw [Nat.mul_succ]; omega
  exact Nat.lt_succ_iff.mp (Nat.lt_of_mul_lt_mul_left hlt)

end HandlingRobot
