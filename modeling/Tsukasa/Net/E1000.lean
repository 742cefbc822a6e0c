import Mathlib.Logic.Function.Basic
import Mathlib.Data.List.Basic

/-!
# The e1000 driver, transmit side

`net/nic/e1000.c` with the device it drives. Driver and device meet in the ring of descriptors, the buffers and the registers TDH and TDT. The address of a buffer is its index.
-/

namespace Tsukasa

def e1000TxRingSize : Nat := 32

structure E1000TxDesc where
  bufferAddr : Nat
  length : Nat
  cso : Nat
  cmd : Nat
  status : Nat
  css : Nat
  special : Nat
deriving DecidableEq

structure E1000 where
  initialized : Bool
  txTail : Nat
  txDesc : Nat → E1000TxDesc
  txBuf : Nat → Nat → UInt8
  tdh : Nat
  tdt : Nat

/-- The transmit ring as `e1000_attach` sets it up. -/
def e1000TxSetup (s : E1000) : E1000 :=
  { s with
    initialized := true
    txDesc := fun i => if i < e1000TxRingSize then ⟨i, 0, 0, 0, 1, 0, 0⟩ else s.txDesc i
    tdh := 0
    tdt := 0
    txTail := 0 }

/-- `e1000_send_packet`; `none` is a null pointer. -/
def e1000SendPacket (s : E1000) : Option (List UInt8) → Int × E1000
  | none => (-1, s)
  | some data =>
      if !s.initialized ∨ data.length = 0 ∨ 1518 < data.length then (-1, s)
      else if (s.txDesc s.txTail).status % 2 = 0 then (-1, s)
      else
        let next := (s.txTail + 1) % e1000TxRingSize
        (0, { s with
          txBuf := Function.update s.txBuf s.txTail fun i => if i < data.length then data.getD i 0 else s.txBuf s.txTail i
          txDesc := Function.update s.txDesc s.txTail { s.txDesc s.txTail with length := data.length, cmd := 0x0B, status := 0 }
          txTail := next
          tdt := next })

/-- The frame that descriptor `i` describes. -/
def E1000.frame (s : E1000) (i : Nat) : List UInt8 := (List.range (s.txDesc i).length).map (s.txBuf (s.txDesc i).bufferAddr)

/-- A step of the device: while its head is not the tail it sends the frame at its head, sets the done bit and moves on. -/
def e1000Device (s : E1000) : Option (List UInt8) × E1000 :=
  if s.tdh = s.tdt then (none, s)
  else
    (some (s.frame s.tdh), { s with
      txDesc := Function.update s.txDesc s.tdh { s.txDesc s.tdh with status := (s.txDesc s.tdh).status / 2 * 2 + 1 }
      tdh := (s.tdh + 1) % e1000TxRingSize })

/-! ### Runs -/

inductive E1000Step where
  | send (data : Option (List UInt8))
  | device

/-- The card with the frames its driver has accepted and the ones it has sent. -/
structure E1000Trace where
  nic : E1000
  accepted : List (List UInt8)
  sent : List (List UInt8)

def E1000Trace.step (t : E1000Trace) : E1000Step → E1000Trace
  | .send data =>
      let r := e1000SendPacket t.nic data
      { t with nic := r.2, accepted := if r.1 = 0 then t.accepted ++ data.toList else t.accepted }
  | .device =>
      let r := e1000Device t.nic
      { t with nic := r.2, sent := t.sent ++ r.1.toList }

def E1000Trace.start (s : E1000) : E1000Trace := ⟨e1000TxSetup s, [], []⟩

end Tsukasa
