import HandlingRobot.Library.Mailbox
import HandlingRobot.Library.Runs
import HandlingRobot.Uart.Frame

/-! # From the interrupt to the packet handler

Three parties pass a packet on: the interrupt callback `uart8_callback` posts the address of
`uart8_rx_buffer` to `uart8_mb`, the thread `uart8_mb_recv` copies the frame to `uart_buff` and
posts a flag to `data_mb`, the thread `data_analysis` takes the flag and handles `uart_buff`. Both
mailboxes have capacity 1 and carry no payload: the bytes sit in the two global buffers. The
interrupt can overwrite `uart8_rx_buffer` between any two statements of the receive thread, so these
are steps of their own.

* **`Relay`** — the buffers, the mailboxes and the statement that the receive thread has come to,
  with a log of what was handled; **`relayStep`** — one step of one party, so that a schedule is an
  interleaving.
* **`Relay.Works`** — the receive thread is on its way with a frame.
* **`Relay.Latest`** — where the newest packet is, in any interleaving.
* **`Prioritised`** — the handler waits until the receive thread is blocked; then it always finds
  the newest packet, whatever the interrupt does.
* **`Undisturbed`** — no window comes while the thread reads the one before;
  **`Relay.Carries`** — the frames on their way in such an interleaving.
* **`PostsAccepted`** — no post finds its mailbox full; then nothing is replaced. -/

namespace HandlingRobot

/-- What `uart8_mb` carries: the address of a receive buffer. Only `uart8_rx_buffer` is sent. -/
inductive RxAddress
  | uart8RxBuffer
  deriving Repr, DecidableEq

/-- The next statement of the thread `uart8_mb_recv`. -/
inductive RecvPc
  /-- `rt_mb_recv(uart8_mb, …)`. -/
  | waiting
  /-- `while (i <= PACK_LEN)`, then `data[i] == '$'`. -/
  | scanning (i : ℕ)
  /-- `data[i + PACK_LEN - 1] == '\n'`. -/
  | testing (i : ℕ)
  /-- `cnt < PACK_LEN`, then `uart_buff[cnt] = data[cnt + i]`. -/
  | copying (i cnt : ℕ)
  /-- `rt_mb_send(data_mb, (uint32)car.uart)`. -/
  | posting
  deriving Repr, DecidableEq

/-- **The shared state of the serial link.** -/
structure Relay where
  /-- `uart8_rx_buffer`, the 42 bytes of the last receive window. -/
  uart8RxBuffer : List UInt8
  /-- `uart8_mb`, from the interrupt to the receive thread. -/
  uart8Mb : Mailbox RxAddress 1
  /-- The next statement of the receive thread. -/
  recvPc : RecvPc
  /-- `uart_buff`, the last frame found. -/
  uartBuff : List UInt8
  /-- `data_mb`, from the receive thread to the handler thread. -/
  dataMb : Mailbox ℤ 1
  /-- `car.uart`. -/
  uart : SpStatus
  /-- Log of the frames `data_analysis` has handled, oldest first. -/
  handled : List (List UInt8)

/-- The link after `uart8_init`. -/
def Relay.boot : Relay :=
  ⟨List.replicate (2 * packLen) 0, .empty, .waiting, List.replicate packLen 0, .empty, .wait, []⟩

/-- The steps of the three parties. -/
inductive RelayAct
  /-- `uart8_callback` with `kStatus_LPUART_RxIdle`, after a window has filled the buffer. -/
  | uart8Callback (w : Window)
  /-- The next statement of the receive thread. -/
  | uart8MbRecv
  /-- One turn of the handler thread. -/
  | dataAnalysis

/-- `uart8_callback`: the window is in `uart8_rx_buffer`, and its address is posted. -/
def Relay.uart8Callback (r : Relay) (w : Window) : Relay :=
  { r with uart8RxBuffer := w.data, uart8Mb := r.uart8Mb.send .uart8RxBuffer }

/-- **The next statement of `uart8_mb_recv`.** `data` is the address that was taken, so a read finds
what the buffer holds by then; a read outside of it is `none`. -/
def Relay.uart8MbRecvStep (r : Relay) : Option Relay :=
  match r.recvPc with
  | .waiting => do
      let (_, uart8Mb) ← r.uart8Mb.recv
      some { r with uart8Mb, recvPc := .scanning 0 }
  | .scanning i =>
      if i ≤ packLen then do
        let b ← r.uart8RxBuffer[i]?
        if b = headByte then some { r with recvPc := .testing i }
        else some { r with recvPc := .scanning (i + 1) }
      else some { r with uart := .headerErr, recvPc := .waiting }
  | .testing i => do
      let e ← r.uart8RxBuffer[i + packLen - 1]?
      if e = tailByte then some { r with recvPc := .copying i 0 }
      else some { r with recvPc := .scanning (i + 1) }
  | .copying i cnt =>
      if cnt < packLen then do
        let b ← r.uart8RxBuffer[cnt + i]?
        some { r with uartBuff := r.uartBuff.set cnt b, recvPc := .copying i (cnt + 1) }
      else some { r with uart := .ok, recvPc := .posting }
  | .posting => some { r with dataMb := r.dataMb.send r.uart.code, recvPc := .waiting }

/-- One turn of the thread `data_analysis`: take the flag; unless its low byte is 0, handle
`uart_buff` and set `car.uart` back to `SP_WAIT`. With the priority 26, behind the 15 of the receive
thread, it does not cut into a turn of that thread. -/
def Relay.dataAnalysisTurn (r : Relay) : Option Relay :=
  if r.recvPc = .waiting then do
    let (get, dataMb) ← r.dataMb.recv
    if get % 256 ≠ 0 then
      some { r with dataMb, handled := r.handled ++ [r.uartBuff], uart := .wait }
    else
      some { r with dataMb }
  else none

/-- **One step of the link.** -/
def relayStep (r : Relay) : RelayAct → Option Relay
  | .uart8Callback w => some (r.uart8Callback w)
  | .uart8MbRecv => r.uart8MbRecvStep
  | .dataAnalysis => r.dataAnalysisTurn

/-- The packets received along a schedule, oldest first: of every window the first one that lies in
it as a whole. -/
def received (as : List RelayAct) : List (List UInt8) :=
  as.flatMap fun
    | .uart8Callback w => [w.packet.bytes]
    | _ => []

/-- Both mailboxes are empty and the receive thread waits: whatever was posted has been handled. -/
structure Relay.Idle (r : Relay) : Prop where
  uart8Mb : r.uart8Mb.mails = []
  dataMb : r.dataMb.mails = []
  recvPc : r.recvPc = .waiting

/-- **No window comes while the receive thread reads the one before**, from the mail it takes to the
last byte it copies. -/
def Undisturbed (r : Relay) : RelayAct → Prop
  | .uart8Callback _ => r.recvPc = .waiting ∨ r.recvPc = .posting
  | _ => True

/-- **The handler runs only while the receive thread is blocked**, on an empty mailbox: this is what
its lower priority means. -/
def Prioritised (r : Relay) : RelayAct → Prop
  | .dataAnalysis => r.uart8Mb.mails = []
  | _ => True

/-- A post made in this step would find its mailbox empty. -/
def PostsAccepted (r : Relay) : RelayAct → Prop
  | .uart8Callback _ => r.uart8Mb.HasRoom
  | .uart8MbRecv => r.recvPc = .posting → r.dataMb.HasRoom
  | .dataAnalysis => True

instance (r : Relay) : ∀ a, Decidable (Undisturbed r a)
  | .uart8Callback _ => inferInstanceAs (Decidable (_ ∨ _))
  | .uart8MbRecv => isTrue trivial
  | .dataAnalysis => isTrue trivial

instance (r : Relay) : ∀ a, Decidable (PostsAccepted r a)
  | .uart8Callback _ => inferInstanceAs (Decidable (Mailbox.HasRoom _))
  | .uart8MbRecv => inferInstanceAs (Decidable (_ → _))
  | .dataAnalysis => isTrue trivial

@[simp] theorem received_nil : received [] = [] := rfl

/-- A schedule with one more step receives the step's frame last. -/
theorem received_concat (as : List RelayAct) (a : RelayAct) :
    received (as ++ [a]) = received as ++ received [a] := by
  simp [received]

/-- After a callback the window is announced, whether it was before or not. -/
theorem uart8Callback_mails (r : Relay) (w : Window) :
    (r.uart8Callback w).uart8Mb.mails ≠ [] :=
  r.uart8Mb.mails_send_ne_nil _

/-! ## What one step does -/

/-- The loops of the receive thread stay inside the buffer. -/
def RecvPc.InBuffer : RecvPc → Prop
  | .scanning i => i ≤ packLen + 1
  | .testing i => i ≤ packLen
  | .copying i cnt => i ≤ packLen ∧ cnt ≤ packLen
  | _ => True

/-- **What always holds**: the buffers have their lengths, the loops stay inside them, and `SP_OK`
is the only flag that is ever posted. -/
structure Relay.Sound (r : Relay) : Prop where
  rxLength : r.uart8RxBuffer.length = 2 * packLen
  length : r.uartBuff.length = packLen
  inBuffer : r.recvPc.InBuffer
  posting : r.recvPc = .posting → r.uart = .ok
  flag : ∀ v ∈ r.dataMb.mails, v = SpStatus.ok.code

theorem Relay.sound_boot : Relay.boot.Sound :=
  ⟨rfl, rfl, trivial, fun h => absurd h (by decide), fun v hv => absurd hv List.not_mem_nil⟩

/-- **The statements of the receive thread**: it takes a mail, posts its flag, or reads on. -/
theorem uart8MbRecvStep_cases {r r' : Relay} (hr : r.Sound) (h : r.uart8MbRecvStep = some r') :
    (r.recvPc = .waiting ∧ r.uart8Mb.mails ≠ [] ∧ r'.uart8Mb.mails = [] ∧
      ∃ mb, r' = { r with uart8Mb := mb, recvPc := .scanning 0 }) ∨
    (r.recvPc = .posting ∧
      r' = { r with dataMb := r.dataMb.send SpStatus.ok.code, recvPc := .waiting }) ∨
    ((r.recvPc ≠ .waiting ∧ r.recvPc ≠ .posting) ∧ r'.Sound ∧ r'.uart8Mb = r.uart8Mb ∧
      r'.uart8RxBuffer = r.uart8RxBuffer ∧ r'.dataMb = r.dataMb ∧ r'.handled = r.handled) := by
  obtain ⟨hrx, hlen, hin, hposting, hflag⟩ := hr
  unfold Relay.uart8MbRecvStep at h
  cases hpc : r.recvPc with
  | waiting =>
      rw [hpc] at h
      obtain ⟨⟨addr, mb⟩, hrecv, h⟩ := Option.bind_eq_some_iff.mp h
      obtain rfl := Option.some.inj h
      rw [Mailbox.recv_eq_some_iff] at hrecv
      refine Or.inl ⟨rfl, by rw [hrecv]; exact List.cons_ne_nil _ _, ?_, mb, rfl⟩
      obtain hnil | ⟨x, hx⟩ := r.uart8Mb.mails_eq_nil_or_singleton
      · rw [hnil] at hrecv
        exact absurd hrecv (List.cons_ne_nil _ _).symm
      · rw [hx, List.cons.injEq] at hrecv
        exact hrecv.2.symm
  | posting =>
      rw [hpc] at h
      obtain rfl := Option.some.inj h
      rw [hposting hpc]
      exact Or.inr (Or.inl ⟨rfl, rfl⟩)
  | scanning i =>
      rw [hpc] at h hin
      dsimp only at h
      refine Or.inr (Or.inr ⟨⟨by simp, by simp⟩, ?_⟩)
      split_ifs at h with hi
      · obtain ⟨b, -, h⟩ := Option.bind_eq_some_iff.mp h
        split_ifs at h
        · obtain rfl := Option.some.inj h
          exact ⟨⟨hrx, hlen, hi, fun h => absurd h (by simp), hflag⟩, rfl, rfl, rfl, rfl⟩
        · obtain rfl := Option.some.inj h
          exact ⟨⟨hrx, hlen, Nat.succ_le_succ hi, fun h => absurd h (by simp), hflag⟩, rfl, rfl,
            rfl, rfl⟩
      · obtain rfl := Option.some.inj h
        exact ⟨⟨hrx, hlen, trivial, fun h => absurd h (by simp), hflag⟩, rfl, rfl, rfl, rfl⟩
  | testing i =>
      rw [hpc] at h hin
      refine Or.inr (Or.inr ⟨⟨by simp, by simp⟩, ?_⟩)
      obtain ⟨e, -, h⟩ := Option.bind_eq_some_iff.mp h
      split_ifs at h
      · obtain rfl := Option.some.inj h
        exact ⟨⟨hrx, hlen, ⟨hin, Nat.zero_le _⟩, fun h => absurd h (by simp), hflag⟩, rfl, rfl,
          rfl, rfl⟩
      · obtain rfl := Option.some.inj h
        exact ⟨⟨hrx, hlen, Nat.succ_le_succ hin, fun h => absurd h (by simp), hflag⟩, rfl, rfl,
          rfl, rfl⟩
  | copying i cnt =>
      rw [hpc] at h hin
      dsimp only at h
      refine Or.inr (Or.inr ⟨⟨by simp, by simp⟩, ?_⟩)
      split_ifs at h with hcnt
      · obtain ⟨b, -, h⟩ := Option.bind_eq_some_iff.mp h
        obtain rfl := Option.some.inj h
        exact ⟨⟨hrx, List.length_set.trans hlen, ⟨hin.1, hcnt⟩, fun h => absurd h (by simp),
          hflag⟩, rfl, rfl, rfl, rfl⟩
      · obtain rfl := Option.some.inj h
        exact ⟨⟨hrx, hlen, trivial, fun _ => rfl, hflag⟩, rfl, rfl, rfl, rfl⟩

/-- **A turn of the handler** takes the flag and handles `uart_buff`. -/
theorem dataAnalysisTurn_cases {r r' : Relay} (hr : r.Sound) (h : r.dataAnalysisTurn = some r') :
    r.recvPc = .waiting ∧ r.dataMb.mails = [SpStatus.ok.code] ∧
      ∃ mb : Mailbox ℤ 1, mb.mails = [] ∧
        r' = { r with dataMb := mb, handled := r.handled ++ [r.uartBuff], uart := .wait } := by
  unfold Relay.dataAnalysisTurn at h
  split_ifs at h with hpc
  obtain ⟨⟨get, mb⟩, hrecv, h⟩ := Option.bind_eq_some_iff.mp h
  rw [Mailbox.recv_eq_some_iff] at hrecv
  -- the only value that is ever posted
  have hget : get = SpStatus.ok.code := hr.flag get (by rw [hrecv]; exact List.mem_cons_self)
  subst hget
  obtain rfl := Option.some.inj h
  obtain hnil | ⟨x, hx⟩ := r.dataMb.mails_eq_nil_or_singleton
  · rw [hnil] at hrecv
    exact absurd hrecv (List.cons_ne_nil _ _).symm
  · rw [hx, List.cons.injEq] at hrecv
    exact ⟨hpc, by rw [hx, hrecv.1], mb, hrecv.2.symm, rfl⟩

/-- A step keeps the link sound. -/
theorem relayStep_sound {r r' : Relay} {a : RelayAct} (hr : r.Sound)
    (h : relayStep r a = some r') : r'.Sound := by
  cases a with
  | uart8Callback w =>
      obtain rfl := Option.some.inj h
      exact ⟨w.length_data, hr.length, hr.inBuffer, hr.posting, hr.flag⟩
  | uart8MbRecv =>
      obtain ⟨-, -, -, mb, rfl⟩ | ⟨-, rfl⟩ | ⟨-, hsound, -⟩ := uart8MbRecvStep_cases hr h
      · exact ⟨hr.rxLength, hr.length, Nat.zero_le _, fun h => absurd h (by simp), hr.flag⟩
      · refine ⟨hr.rxLength, hr.length, trivial, fun h => absurd h (by simp), fun v hv => ?_⟩
        obtain hold | hnew := Mailbox.mem_mails_send hv
        · exact hr.flag v hold
        · exact hnew
      · exact hsound
  | dataAnalysis =>
      obtain ⟨hpc, -, mb, hmb, rfl⟩ := dataAnalysisTurn_cases hr h
      refine ⟨hr.rxLength, hr.length, hr.inBuffer, fun h => absurd (hpc.symm.trans h) (by simp),
        fun v hv => ?_⟩
      rw [show _ = mb.mails from rfl, hmb] at hv
      exact absurd hv List.not_mem_nil

/-- **The receive thread never gets stuck**: unless it waits for a mail, its next statement reads
inside the buffer. -/
theorem Relay.Sound.exists_step {r : Relay} (hr : r.Sound) (hpc : r.recvPc ≠ .waiting) :
    ∃ r', relayStep r .uart8MbRecv = some r' := by
  have hread : ∀ i, i < 2 * packLen → ∃ b, r.uart8RxBuffer[i]? = some b := fun i hi =>
    ⟨_, List.getElem?_eq_getElem (hr.rxLength ▸ hi)⟩
  have hin := hr.inBuffer
  simp only [relayStep, Relay.uart8MbRecvStep]
  cases h : r.recvPc with
  | waiting => exact absurd h hpc
  | posting => exact ⟨_, rfl⟩
  | scanning i =>
      dsimp only
      split_ifs with hi
      · obtain ⟨b, hb⟩ := hread i (by simp only [packLen] at *; omega)
        rw [hb, Option.bind_eq_bind, Option.bind_some]
        split_ifs <;> exact ⟨_, rfl⟩
      · exact ⟨_, rfl⟩
  | testing i =>
      rw [h] at hin
      obtain ⟨e, he⟩ := hread (i + packLen - 1) (by
        simp only [RecvPc.InBuffer, packLen] at *
        omega)
      dsimp only
      rw [he, Option.bind_eq_bind, Option.bind_some]
      split_ifs <;> exact ⟨_, rfl⟩
  | copying i cnt =>
      rw [h] at hin
      dsimp only
      split_ifs with hcnt
      · obtain ⟨b, hb⟩ := hread (cnt + i) (by simp only [RecvPc.InBuffer, packLen] at *; omega)
        rw [hb]
        exact ⟨_, rfl⟩
      · exact ⟨_, rfl⟩

/-! ## The receive thread on its way -/

/-- **The receive thread is on its way with a frame**: the buffer shows a window whose scan ends at
the frame, the frame has been copied in part, or it is to be announced. -/
def Relay.Works (r : Relay) (frame : List UInt8) : Prop :=
  match r.recvPc with
  | .waiting => False
  | .scanning i => ∃ w : Window, r.uart8RxBuffer = w.data ∧
      scanFrame w.data (packLen + 1 - i) i = some w.offset ∧ frame = w.packet.bytes
  | .testing i => ∃ w : Window, r.uart8RxBuffer = w.data ∧ w.data[i]? = some headByte ∧
      scanFrame w.data (packLen + 1 - i) i = some w.offset ∧ frame = w.packet.bytes
  | .copying i cnt => ∃ w : Window, r.uart8RxBuffer = w.data ∧ i = w.offset ∧
      r.uartBuff.take cnt = w.packet.bytes.take cnt ∧ frame = w.packet.bytes
  | .posting => r.uartBuff = frame

theorem Relay.Works.ne_waiting {r : Relay} {frame : List UInt8} (h : r.Works frame) :
    r.recvPc ≠ .waiting := by
  intro hpc
  rw [Relay.Works, hpc] at h
  exact h

/-- The thread begins with the window that it finds in the buffer. -/
theorem Relay.works_start {r : Relay} {w : Window} (hpc : r.recvPc = .scanning 0)
    (hrx : r.uart8RxBuffer = w.data) : r.Works w.packet.bytes := by
  rw [Relay.Works, hpc]
  exact ⟨w, hrx, w.scanFrame_data, rfl⟩

/-- A scan that is still to end at the packet has not come to its end. -/
theorem Window.le_of_scanFrame {w : Window} {i : ℕ}
    (h : scanFrame w.data (packLen + 1 - i) i = some w.offset) : i ≤ packLen := by
  by_contra hi
  rw [Nat.sub_eq_zero_of_le (by omega), scanFrame, Option.some.injEq] at h
  have hlt := w.offset_lt
  omega

/-- **A statement of the thread** takes it on with its frame, if the buffer is as before. -/
theorem Relay.Works.step {r r' : Relay} {frame : List UInt8} (hr : r.Sound) (h : r.Works frame)
    (hpc : r.recvPc ≠ .posting) (hstep : r.uart8MbRecvStep = some r') : r'.Works frame := by
  have hin := hr.inBuffer
  unfold Relay.uart8MbRecvStep at hstep
  unfold Relay.Works at h
  cases hcase : r.recvPc with
  | waiting =>
      rw [hcase] at h
      exact h.elim
  | posting => exact absurd hcase hpc
  | scanning i =>
      rw [hcase] at h hstep
      obtain ⟨w, hrx, hscan, hframe⟩ := h
      have hi := Window.le_of_scanFrame hscan
      dsimp only at hstep
      rw [if_pos hi] at hstep
      obtain ⟨b, hb, hstep⟩ := Option.bind_eq_some_iff.mp hstep
      rw [hrx] at hb
      split_ifs at hstep with hhead
      · obtain rfl := Option.some.inj hstep
        exact ⟨w, hrx, hhead ▸ hb, hscan, hframe⟩
      · obtain rfl := Option.some.inj hstep
        refine ⟨w, hrx, ?_, hframe⟩
        rw [show packLen + 1 - i = packLen + 1 - (i + 1) + 1 by omega, scanFrame, hb,
          Option.bind_eq_bind, Option.bind_some, if_neg hhead] at hscan
        exact hscan
  | testing i =>
      rw [hcase] at h hstep
      obtain ⟨w, hrx, hhead, hscan, hframe⟩ := h
      have hi := Window.le_of_scanFrame hscan
      dsimp only at hstep
      obtain ⟨e, he, hstep⟩ := Option.bind_eq_some_iff.mp hstep
      rw [hrx] at he
      rw [show packLen + 1 - i = packLen + 1 - (i + 1) + 1 by omega, scanFrame, hhead,
        Option.bind_eq_bind, Option.bind_some, if_pos rfl, he, Option.bind_some] at hscan
      split_ifs at hstep hscan with htail
      · obtain rfl := Option.some.inj hstep
        exact ⟨w, hrx, Option.some.inj hscan, rfl, hframe⟩
      · obtain rfl := Option.some.inj hstep
        exact ⟨w, hrx, hscan, hframe⟩
  | copying i cnt =>
      rw [hcase] at h hstep hin
      obtain ⟨w, hrx, rfl, htake, hframe⟩ := h
      dsimp only at hstep
      split_ifs at hstep with hcnt
      · obtain ⟨b, hb, hstep⟩ := Option.bind_eq_some_iff.mp hstep
        rw [hrx, w.getElem?_packet hcnt] at hb
        obtain rfl := Option.some.inj hstep
        refine ⟨w, hrx, rfl, ?_, hframe⟩
        -- one more byte agrees
        have hlt : cnt < (r.uartBuff.set cnt b).length := by
          rw [List.length_set, hr.length]
          exact hcnt
        have hnew : (r.uartBuff.set cnt b)[cnt]? = some b := by
          rw [List.getElem?_eq_getElem hlt, List.getElem_set_self]
        rw [List.take_add_one, List.take_add_one, hnew, hb,
          List.take_set_of_le (le_refl cnt), htake]
      · obtain rfl := Option.some.inj hstep
        have hall : cnt = packLen := Nat.le_antisymm hin.2 (not_lt.mp hcnt)
        rw [hall, List.take_of_length_le hr.length.le,
          List.take_of_length_le w.packet.length_eq.le] at htake
        exact htake.trans hframe.symm

/-! ## The newest packet -/

/-- **Where the newest packet is.** -/
inductive Relay.Latest (r : Relay) : Option (List UInt8) → Prop
  /-- In the buffer of the interrupt, and announced. -/
  | inWindow (w : Window) (hmail : r.uart8Mb.mails ≠ []) (hrx : r.uart8RxBuffer = w.data) :
      r.Latest (some w.packet.bytes)
  /-- On its way to `uart_buff`. -/
  | onItsWay (frame : List UInt8) (hmail : r.uart8Mb.mails = []) (hworks : r.Works frame) :
      r.Latest (some frame)
  /-- In `uart_buff`, and announced. -/
  | announced (hmail : r.uart8Mb.mails = []) (hpc : r.recvPc = .waiting)
      (hdata : r.dataMb.mails ≠ []) : r.Latest (some r.uartBuff)
  /-- Handled last, if there was one. -/
  | handled (hmail : r.uart8Mb.mails = []) (hpc : r.recvPc = .waiting)
      (hdata : r.dataMb.mails = []) : r.Latest r.handled.getLast?

/-- A step moves the newest packet on, unless a newer one comes. -/
theorem Relay.Latest.step {r r' : Relay} {a : RelayAct} {newest : Option (List UInt8)}
    (hr : r.Sound) (h : r.Latest newest) (hstep : relayStep r a = some r') :
    r'.Latest ((received [a]).getLast?.or newest) := by
  cases a with
  | uart8Callback w =>
      obtain rfl := Option.some.inj hstep
      exact .inWindow w (uart8Callback_mails r w) rfl
  | uart8MbRecv =>
      show r'.Latest newest
      obtain ⟨hpc, hne, hnil, mb, rfl⟩ | ⟨hpc, rfl⟩ | ⟨⟨hpc, hpost⟩, -, hmb, hrx, -⟩ :=
        uart8MbRecvStep_cases hr hstep
      · -- the thread takes the mail
        cases h with
        | inWindow w hmail hrx => exact .onItsWay _ hnil (Relay.works_start rfl hrx)
        | onItsWay frame hmail => exact absurd hmail hne
        | announced hmail => exact absurd hmail hne
        | handled hmail => exact absurd hmail hne
      · -- the thread posts its flag
        cases h with
        | inWindow w hmail hrx => exact .inWindow w hmail hrx
        | onItsWay frame hmail hworks =>
            rw [Relay.Works, hpc] at hworks
            subst hworks
            exact .announced hmail rfl (r.dataMb.mails_send_ne_nil _)
        | announced hmail hwait => exact absurd (hpc.symm.trans hwait) (by simp)
        | handled hmail hwait => exact absurd (hpc.symm.trans hwait) (by simp)
      · -- the thread reads on
        cases h with
        | inWindow w hmail hbuf => exact .inWindow w (hmb ▸ hmail) (hrx.trans hbuf)
        | onItsWay frame hmail hworks =>
            exact .onItsWay frame (hmb ▸ hmail) (hworks.step hr hpost hstep)
        | announced hmail hwait => exact absurd hwait hpc
        | handled hmail hwait => exact absurd hwait hpc
  | dataAnalysis =>
      show r'.Latest newest
      obtain ⟨hpc, hone, mb, hmb, rfl⟩ := dataAnalysisTurn_cases hr hstep
      cases h with
      | inWindow w hmail hrx => exact .inWindow w hmail hrx
      | onItsWay frame hmail hworks => exact absurd hpc hworks.ne_waiting
      | announced hmail hwait =>
          rw [← List.getLast?_concat (l := r.handled)]
          exact .handled hmail hwait hmb
      | handled hmail hwait hnone => exact absurd (hone.symm.trans hnone) (by simp)

/-- **The newest packet is never lost**, in any interleaving. -/
theorem runSteps_latest (as : List RelayAct) (r : Relay)
    (h : runSteps relayStep Relay.boot as = some r) :
    r.Sound ∧ r.Latest (received as).getLast? := by
  refine runSteps_invariant
    (I := fun as r => r.Sound ∧ r.Latest (received as).getLast?) ?_ ?_ as r h
  · exact ⟨Relay.sound_boot, .handled rfl rfl rfl⟩
  · rintro as r a r' ⟨hr, hlatest⟩ hstep
    refine ⟨relayStep_sound hr hstep, ?_⟩
    rw [received_concat, List.getLast?_append]
    exact hlatest.step hr hstep

/-- With the priorities kept, the handler finds the newest packet, and no other party has work left
after it: the frames handled are a subsequence of those received, and unless the link is idle the
newest one is still to come. -/
theorem runSteps_prioritised (as : List RelayAct) (r : Relay)
    (hprio : StepsSatisfy relayStep Prioritised Relay.boot as)
    (h : runSteps relayStep Relay.boot as = some r) :
    r.handled.Sublist (received as) ∧ (¬ r.Idle → r.handled.Sublist (received as).dropLast) := by
  refine (runSteps_invariant_of_steps (I := fun as r =>
    (r.Sound ∧ r.Latest (received as).getLast?) ∧ r.handled.Sublist (received as) ∧
      (¬ r.Idle → r.handled.Sublist (received as).dropLast)) ?_ ?_ as r hprio h).2
  · exact ⟨runSteps_latest [] _ rfl, List.Sublist.refl _, fun hidle => absurd ⟨rfl, rfl, rfl⟩ hidle⟩
  · rintro as r a r' ⟨⟨hr, hlatest⟩, hsub, hbusy⟩ hfree hstep
    have hlatest' := hlatest.step hr hstep
    rw [← List.getLast?_append, ← received_concat] at hlatest'
    refine ⟨⟨relayStep_sound hr hstep, hlatest'⟩, ?_⟩
    rw [received_concat]
    cases a with
    | uart8Callback w =>
        obtain rfl := Option.some.inj hstep
        have hone : received [.uart8Callback w] = [w.packet.bytes] := rfl
        rw [hone, List.dropLast_concat]
        exact ⟨hsub.trans (List.sublist_append_left _ _), fun _ => hsub⟩
    | uart8MbRecv =>
        have hnone : received [RelayAct.uart8MbRecv] = [] := rfl
        rw [hnone, List.append_nil]
        obtain ⟨-, hne, -, mb, rfl⟩ | ⟨hpc, rfl⟩ | ⟨⟨hpc, -⟩, -, -, -, -, hlog⟩ :=
          uart8MbRecvStep_cases hr hstep
        · exact ⟨hsub, fun _ => hbusy fun hidle => hne hidle.uart8Mb⟩
        · exact ⟨hsub, fun _ => hbusy fun hidle => absurd (hpc.symm.trans hidle.recvPc) (by simp)⟩
        · rw [hlog]
          exact ⟨hsub, fun _ => hbusy fun hidle => hpc hidle.recvPc⟩
    | dataAnalysis =>
        have hnone : received [RelayAct.dataAnalysis] = [] := rfl
        rw [hnone, List.append_nil]
        obtain ⟨hpc, hone, mb, hmb, rfl⟩ := dataAnalysisTurn_cases hr hstep
        refine ⟨?_, fun hidle => absurd ⟨hfree, hmb, hpc⟩ hidle⟩
        have hbefore := hbusy fun hidle => absurd (hone.symm.trans hidle.dataMb) (by simp)
        have hnewest : (received as).getLast? = some r.uartBuff := by
          generalize (received as).getLast? = newest at hlatest ⊢
          cases hlatest with
          | inWindow w hmail => exact absurd hfree hmail
          | onItsWay frame hmail hworks => exact absurd hpc hworks.ne_waiting
          | announced => rfl
          | handled hmail hwait hdata => exact absurd (hone.symm.trans hdata) (by simp)
        rw [← List.dropLast_append_getLast? _ (Option.mem_def.mpr hnewest)]
        exact hbefore.append (List.Sublist.refl _)

/-! ## The frames on their way -/

/-- **The frames on their way**: `old` is announced in `data_mb`, the receive thread is on its way
with `cur`, `new` is announced in `uart8_mb`. -/
structure Relay.Carries (r : Relay) (old cur new : List (List UInt8)) : Prop where
  length_old : old.length = r.dataMb.mails.length
  old : r.recvPc = .waiting → ∀ f ∈ old, f = r.uartBuff
  cur : (r.recvPc = .waiting ∧ cur = []) ∨ ∃ f, r.Works f ∧ cur = [f]
  new : (r.uart8Mb.mails = [] ∧ new = []) ∨
    ∃ w : Window, r.uart8Mb.mails ≠ [] ∧ r.uart8RxBuffer = w.data ∧ new = [w.packet.bytes]

/-- **What a step does to the frames handled or on their way**: it keeps a subsequence of them and
adds what it receives; it keeps all of them when its post is accepted. -/
def Relay.HandsOn (r r' : Relay) (old cur new got : List (List UInt8)) (accepted : Prop) : Prop :=
  ∃ old' cur' new', r'.Carries old' cur' new' ∧
    (r'.handled ++ old' ++ cur' ++ new').Sublist (r.handled ++ old ++ cur ++ new ++ got) ∧
    (accepted → r'.handled ++ old' ++ cur' ++ new' = r.handled ++ old ++ cur ++ new ++ got)

/-- The interrupt overwrites an older window that is still in the buffer. -/
theorem Relay.Carries.uart8Callback {r : Relay} {old cur new : List (List UInt8)}
    (h : r.Carries old cur new) (w : Window)
    (hquiet : r.recvPc = .waiting ∨ r.recvPc = .posting) :
    r.HandsOn (r.uart8Callback w) old cur new [w.packet.bytes] r.uart8Mb.HasRoom := by
  obtain ⟨hlen, hold, hcur, hnew⟩ := h
  refine ⟨old, cur, [w.packet.bytes], ⟨hlen, hold, ?_, Or.inr ⟨w, ?_, rfl, rfl⟩⟩, ?_, ?_⟩
  · obtain hwait | hpost := hquiet
    · obtain hcur | ⟨f, hworks, -⟩ := hcur
      · exact Or.inl hcur
      · exact absurd hwait hworks.ne_waiting
    · obtain ⟨hwait, -⟩ | ⟨f, hworks, hf⟩ := hcur
      · exact absurd (hpost.symm.trans hwait) (by simp)
      · refine Or.inr ⟨f, ?_, hf⟩
        rw [Relay.Works, hpost] at hworks
        rw [Relay.Works, show (r.uart8Callback w).recvPc = .posting from hpost]
        exact hworks
  · exact uart8Callback_mails r w
  · exact (List.sublist_append_left _ new).append (List.Sublist.refl [w.packet.bytes])
  · intro hroom
    have hnil := r.uart8Mb.hasRoom_iff.mp hroom
    obtain ⟨-, rfl⟩ | ⟨w', hne, -⟩ := hnew
    · rw [List.append_nil]
      rfl
    · exact absurd hnil hne

/-- The thread overwrites a frame that is still announced. -/
theorem Relay.Carries.uart8MbRecv {r r' : Relay} {old cur new : List (List UInt8)} (hr : r.Sound)
    (h : r.Carries old cur new) (hstep : r.uart8MbRecvStep = some r') :
    r.HandsOn r' old cur new [] (r.recvPc = .posting → r.dataMb.HasRoom) := by
  obtain ⟨hlen, hold, hcur, hnew⟩ := h
  rw [Relay.HandsOn, List.append_nil]
  obtain ⟨hpc, hne, hnil, mb, rfl⟩ | ⟨hpc, rfl⟩ | ⟨⟨hpc, hpost⟩, -, hmb, hrx, hdata, hlog⟩ :=
    uart8MbRecvStep_cases hr hstep
  · -- the thread takes the mail
    obtain ⟨-, rfl⟩ | ⟨f, hworks, -⟩ := hcur
    · obtain ⟨hnil, -⟩ | ⟨w, -, hrx, rfl⟩ := hnew
      · exact absurd hnil hne
      · refine ⟨old, [w.packet.bytes], [], ⟨hlen, fun h => absurd h (by simp),
          Or.inr ⟨_, Relay.works_start rfl hrx, rfl⟩, Or.inl ⟨hnil, rfl⟩⟩, ?_, fun _ => ?_⟩
        · simp
        · simp
    · exact absurd hpc hworks.ne_waiting
  · -- the thread posts its flag
    obtain ⟨hwait, -⟩ | ⟨f, hworks, rfl⟩ := hcur
    · exact absurd (hpc.symm.trans hwait) (by simp)
    · rw [Relay.Works, hpc] at hworks
      refine ⟨[f], [], new, ⟨?_, fun _ g hg => ?_, Or.inl ⟨rfl, rfl⟩, hnew⟩, ?_, ?_⟩
      · obtain hnil | ⟨v, hv⟩ := (r.dataMb.send SpStatus.ok.code).mails_eq_nil_or_singleton
        · exact absurd hnil (r.dataMb.mails_send_ne_nil _)
        · exact (congrArg List.length hv).symm
      · rw [List.mem_singleton.mp hg]
        exact hworks.symm
      · rw [List.append_nil]
        exact ((List.sublist_append_left _ old).append (List.Sublist.refl [f])).append
          (List.Sublist.refl new)
      · intro hroom
        rw [r.dataMb.hasRoom_iff.mp (hroom hpc), List.length_nil,
          List.length_eq_zero_iff] at hlen
        subst hlen
        simp
  · -- the thread reads on
    obtain ⟨hwait, -⟩ | ⟨f, hworks, rfl⟩ := hcur
    · exact absurd hwait hpc
    · have hworks' := hworks.step hr hpost hstep
      refine ⟨old, [f], new, ⟨hdata ▸ hlen, fun h => absurd h hworks'.ne_waiting,
        Or.inr ⟨f, hworks', rfl⟩, ?_⟩, ?_, fun _ => ?_⟩
      · rw [hmb, hrx]
        exact hnew
      · rw [hlog]
      · rw [hlog]

/-- The handler moves the frame announced to the log. -/
theorem Relay.Carries.dataAnalysis {r r' : Relay} {old cur new : List (List UInt8)} (hr : r.Sound)
    (h : r.Carries old cur new) (hstep : r.dataAnalysisTurn = some r') :
    r.HandsOn r' old cur new [] True := by
  obtain ⟨hlen, hold, hcur, hnew⟩ := h
  rw [Relay.HandsOn, List.append_nil]
  obtain ⟨hpc, hone, mb, hmb, rfl⟩ := dataAnalysisTurn_cases hr hstep
  obtain ⟨-, rfl⟩ | ⟨f, hworks, -⟩ := hcur
  · rw [hone] at hlen
    obtain ⟨f, rfl⟩ := List.length_eq_one_iff.mp hlen
    obtain rfl := hold hpc f List.mem_cons_self
    refine ⟨[], [], new, ⟨(congrArg List.length hmb).symm, fun _ g hg =>
      absurd hg List.not_mem_nil, Or.inl ⟨hpc, rfl⟩, hnew⟩, ?_, fun _ => ?_⟩
    · simp
    · simp
  · exact absurd hpc hworks.ne_waiting

/-- **Every step hands the frames on.** -/
theorem Relay.Carries.step {r r' : Relay} {a : RelayAct} {old cur new : List (List UInt8)}
    (hr : r.Sound) (h : r.Carries old cur new) (hquiet : Undisturbed r a)
    (hstep : relayStep r a = some r') :
    r.HandsOn r' old cur new (received [a]) (PostsAccepted r a) := by
  cases a with
  | uart8Callback w =>
      obtain rfl := Option.some.inj hstep
      exact h.uart8Callback w hquiet
  | uart8MbRecv => exact h.uart8MbRecv hr hstep
  | dataAnalysis => exact h.dataAnalysis hr hstep

/-- Nothing is on its way on an idle link. -/
theorem Relay.Carries.of_idle {r : Relay} {old cur new : List (List UInt8)}
    (h : r.Carries old cur new) (hidle : r.Idle) : old = [] ∧ cur = [] ∧ new = [] := by
  refine ⟨?_, ?_, ?_⟩
  · rw [← List.length_eq_zero_iff, h.length_old, hidle.dataMb]
    rfl
  · obtain ⟨-, hnil⟩ | ⟨f, hworks, -⟩ := h.cur
    · exact hnil
    · exact absurd hidle.recvPc hworks.ne_waiting
  · obtain ⟨-, hnil⟩ | ⟨w, hne, -⟩ := h.new
    · exact hnil
    · exact absurd hidle.uart8Mb hne

/-- Nothing is on its way at the start. -/
theorem Relay.carries_boot : Relay.boot.Carries [] [] [] :=
  ⟨rfl, fun _ _ h => absurd h List.not_mem_nil, Or.inl ⟨rfl, rfl⟩, Or.inl ⟨rfl, rfl⟩⟩

/-- Along an undisturbed run the frames handled or on their way are a subsequence of those
received. -/
theorem runSteps_carries (as : List RelayAct) (r : Relay)
    (hquiet : StepsSatisfy relayStep Undisturbed Relay.boot as)
    (h : runSteps relayStep Relay.boot as = some r) :
    ∃ old cur new, r.Carries old cur new ∧
      (r.handled ++ old ++ cur ++ new).Sublist (received as) := by
  refine (runSteps_invariant_of_steps (I := fun as r => r.Sound ∧ ∃ old cur new,
    r.Carries old cur new ∧ (r.handled ++ old ++ cur ++ new).Sublist (received as))
    ⟨Relay.sound_boot, [], [], [], Relay.carries_boot, List.Sublist.refl _⟩ ?_ as r hquiet h).2
  rintro as r a r' ⟨hr, old, cur, new, hcarries, hsub⟩ hundisturbed hstep
  obtain ⟨old', cur', new', hcarries', hsub', -⟩ := hcarries.step hr hundisturbed hstep
  refine ⟨relayStep_sound hr hstep, old', cur', new', hcarries', ?_⟩
  rw [received_concat]
  exact hsub'.trans (hsub.append (List.Sublist.refl _))

/-- When moreover every post is accepted, nothing received is missing. -/
theorem runSteps_carries_eq (as : List RelayAct) (r : Relay)
    (hquiet : StepsSatisfy relayStep Undisturbed Relay.boot as)
    (hposts : StepsSatisfy relayStep PostsAccepted Relay.boot as)
    (h : runSteps relayStep Relay.boot as = some r) :
    ∃ old cur new, r.Carries old cur new ∧
      r.handled ++ old ++ cur ++ new = received as := by
  refine (runSteps_invariant_of_steps (I := fun as r => r.Sound ∧ ∃ old cur new,
    r.Carries old cur new ∧ r.handled ++ old ++ cur ++ new = received as)
    ⟨Relay.sound_boot, [], [], [], Relay.carries_boot, rfl⟩ ?_ as r (hquiet.and hposts) h).2
  rintro as r a r' ⟨hr, old, cur, new, hcarries, hall⟩ ⟨hundisturbed, hpost⟩ hstep
  obtain ⟨old', cur', new', hcarries', -, hall'⟩ := hcarries.step hr hundisturbed hstep
  refine ⟨relayStep_sound hr hstep, old', cur', new', hcarries', ?_⟩
  rw [hall' hpost, hall, received_concat]

/-! ## Runs -/

/-- The frames handled are a subsequence of those received, if no window comes while the receive
thread reads the one before, or the priorities are kept. -/
theorem runSteps_sublist (as : List RelayAct) (r : Relay)
    (hlink : StepsSatisfy relayStep Undisturbed Relay.boot as ∨
      StepsSatisfy relayStep Prioritised Relay.boot as)
    (h : runSteps relayStep Relay.boot as = some r) : r.handled.Sublist (received as) := by
  obtain hquiet | hprio := hlink
  · obtain ⟨old, cur, new, -, hsub⟩ := runSteps_carries as r hquiet h
    rw [List.append_assoc, List.append_assoc] at hsub
    exact (List.sublist_append_left _ _).trans hsub
  · exact (runSteps_prioritised as r hprio h).1

/-- An idle link on which every post was accepted has handled what it received. -/
theorem runSteps_handled_eq (as : List RelayAct) (r : Relay)
    (hquiet : StepsSatisfy relayStep Undisturbed Relay.boot as)
    (hposts : StepsSatisfy relayStep PostsAccepted Relay.boot as)
    (h : runSteps relayStep Relay.boot as = some r) (hidle : r.Idle) : r.handled = received as := by
  obtain ⟨old, cur, new, hcarries, hall⟩ := runSteps_carries_eq as r hquiet hposts h
  obtain ⟨rfl, rfl, rfl⟩ := hcarries.of_idle hidle
  simpa using hall

/-- The statements of the receive thread from a mail to the flag, for a window that begins with its
packet. -/
def wholeTurn : List RelayAct := List.replicate (packLen + 5) .uart8MbRecv

/-- Two packets arrive before the receive thread runs once. -/
def overrunSchedule : List RelayAct :=
  [.uart8Callback (.repeated .position), .uart8Callback (.repeated .category)] ++ wholeTurn ++
    [.dataAnalysis]

/-- The first packet of `overrunSchedule` is lost: the link is idle again and has handled the second
one only. -/
theorem overrunSchedule_loses_packet :
    ¬ ∀ (as : List RelayAct) (r : Relay), runSteps relayStep Relay.boot as = some r → r.Idle →
      r.handled = received as := by
  intro h
  have hrun : ∃ r, runSteps relayStep Relay.boot overrunSchedule = some r ∧ r.Idle ∧
      r.handled = [Packet.category.bytes] := ⟨_, rfl, ⟨rfl, rfl, rfl⟩, rfl⟩
  obtain ⟨r, hr, hidle, hlog⟩ := hrun
  have hall : r.handled = [Packet.position.bytes, Packet.category.bytes] :=
    h overrunSchedule r hr hidle
  rw [hlog] at hall
  exact absurd hall (by decide)

/-- A schedule in which every post is accepted: each packet is handled before the next one comes. -/
def unhurriedSchedule : List RelayAct :=
  [.uart8Callback (.repeated .position)] ++ wholeTurn ++ [.dataAnalysis,
    .uart8Callback (.repeated .category)] ++ wholeTurn ++ [.dataAnalysis]

/-- **What the link guarantees.** In every interleaving the newest packet is the last one handled
once the link is idle. The frames handled are a subsequence of the packets received (none altered,
duplicated or out of order) when no window comes while the receive thread reads the one before, and
also when one may, but the handler waits until the thread is blocked. When no window comes in
between and no post finds its mailbox full, they are a prefix, and on an idle link exactly the
packets received. -/
theorem relay_delivers (as : List RelayAct) (r : Relay)
    (h : runSteps relayStep Relay.boot as = some r) :
    (r.Idle → r.handled.getLast? = (received as).getLast?) ∧
      (StepsSatisfy relayStep Undisturbed Relay.boot as ∨
        StepsSatisfy relayStep Prioritised Relay.boot as → r.handled.Sublist (received as)) ∧
      (StepsSatisfy relayStep Undisturbed Relay.boot as →
        StepsSatisfy relayStep PostsAccepted Relay.boot as →
          r.handled <+: received as ∧ (r.Idle → r.handled = received as)) := by
  refine ⟨fun hidle => ?_, fun hlink => runSteps_sublist as r hlink h, fun hquiet hposts =>
    ⟨?_, runSteps_handled_eq as r hquiet hposts h⟩⟩
  · obtain ⟨-, hlatest⟩ := runSteps_latest as r h
    generalize (received as).getLast? = newest at hlatest ⊢
    cases hlatest with
    | inWindow w hmail => exact absurd hidle.uart8Mb hmail
    | onItsWay frame hmail hworks => exact absurd hidle.recvPc hworks.ne_waiting
    | announced hmail hpc hdata => exact absurd hidle.dataMb hdata
    | handled => rfl
  · obtain ⟨old, cur, new, -, hall⟩ := runSteps_carries_eq as r hquiet hposts h
    rw [← hall, List.append_assoc, List.append_assoc]
    exact List.prefix_append _ _

/-- `relay_delivers` on `unhurriedSchedule`: both packets are handled, in order. -/
theorem relay_delivers_unhurried :
    ∃ r, runSteps relayStep Relay.boot unhurriedSchedule = some r ∧
      r.handled = [Packet.position.bytes, Packet.category.bytes] := by
  have hrun : ∃ r, runSteps relayStep Relay.boot unhurriedSchedule = some r ∧ r.Idle :=
    ⟨_, rfl, ⟨rfl, rfl, rfl⟩⟩
  obtain ⟨r, hr, hidle⟩ := hrun
  have hquiet : StepsSatisfy relayStep Undisturbed Relay.boot unhurriedSchedule := by
    decide +kernel
  have hposts : StepsSatisfy relayStep PostsAccepted Relay.boot unhurriedSchedule := by
    decide +kernel
  exact ⟨r, hr, ((relay_delivers unhurriedSchedule r hr).2.2 hquiet hposts).2 hidle⟩

end HandlingRobot
