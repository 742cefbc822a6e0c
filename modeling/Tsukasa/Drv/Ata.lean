import Tsukasa.Base.Word
import Tsukasa.Lib.Blocks

/-!
# The ATA driver

`drv/ata.c` over the drive that it programs. The drive has the registers and the commands that the driver uses. What it does takes time: it is busy for as many reads of its status as `delays` says, one number for each thing that it does, and ignores writes to its registers while it is busy or transfers data.
-/

namespace Tsukasa

open Lib (Memory)

/-! ### The drive -/

/-- What the drive does. A transfer has the sector and the word that it is at, and the sectors that are left with this one. -/
inductive AtaPhase where
  | ready
  | failed
  | identify (word : Nat)
  | reading (lba left word : Nat)
  | writing (lba left word : Nat)

def AtaPhase.transfers : AtaPhase → Bool
  | .ready | .failed => false
  | .identify _ | .reading .. | .writing .. => true

/-- The status of a drive that is not busy: DRDY and DSC, with ERR or DRQ. -/
def AtaPhase.status : AtaPhase → BitVec 8
  | .ready => 0x50#8
  | .failed => 0x51#8
  | .identify _ | .reading .. | .writing .. => 0x58#8

structure AtaDrive where
  /-- Whether there is a drive on the bus. -/
  attached : Bool
  disk : Memory
  sectors : Nat
  /-- The words of its identification other than the number of its sectors. -/
  ident : Nat → Nat
  drive : Nat
  count : Nat
  lba0 : Nat
  lba1 : Nat
  lba2 : Nat
  /-- The sector that is being written. -/
  buffer : Memory
  phase : AtaPhase
  busy : Nat
  delays : Nat → Nat

namespace AtaDrive

def statusOf (d : AtaDrive) : BitVec 8 := if !d.attached then 0x00#8 else if 0 < d.busy then 0xD0#8 else d.phase.status

/-- The drive begins something that takes time. -/
def begin (d : AtaDrive) (phase : AtaPhase) : AtaDrive := { d with phase := phase, busy := d.delays 0, delays := fun n => d.delays (n + 1) }

/-- The sector `lba` is next, with `left` sectors to go. -/
def nextSector (d : AtaDrive) (transfer : Nat → Nat → Nat → AtaPhase) (lba left : Nat) : AtaDrive :=
  if left = 0 then d.begin .ready else if lba < d.sectors then d.begin (transfer lba left 0) else d.begin .failed

def lbaOf (d : AtaDrive) : Nat := d.lba0 + 2 ^ 8 * d.lba1 + 2 ^ 16 * d.lba2 + 2 ^ 24 * (d.drive % 16)

/-- A count of zero stands for 256 sectors. -/
def countOf (d : AtaDrive) : Nat := if d.count = 0 then 256 else d.count

def command (d : AtaDrive) (cmd : Nat) : AtaDrive :=
  if cmd = 0x20 then d.nextSector .reading d.lbaOf d.countOf
  else if cmd = 0x30 then d.nextSector .writing d.lbaOf d.countOf
  else if cmd = 0xE7 then d.begin .ready
  else if cmd = 0xEC then { d with lba1 := 0, lba2 := 0 }.begin (.identify 0)
  else d.begin .failed

/-- Words 60 and 61 of the identification are the number of sectors. -/
def identWord (d : AtaDrive) (w : Nat) : Nat :=
  if w = 60 then d.sectors % 2 ^ 16 else if w = 61 then d.sectors / 2 ^ 16 % 2 ^ 16 else d.ident w % 2 ^ 16

end AtaDrive

/-! ### Ports -/

def ataBase : Nat := 0x1F0
def ataCtrl : Nat := 0x3F6

def ataData : Nat := 0
def ataCount : Nat := 2
def ataLba0 : Nat := 3
def ataLba1 : Nat := 4
def ataLba2 : Nat := 5
def ataDriveSel : Nat := 6
def ataStatus : Nat := 7
def ataCmd : Nat := 7

def ataSrBsy : BitVec 8 := 0x80#8
def ataSrDrq : BitVec 8 := 0x08#8
def ataSrErr : BitVec 8 := 0x01#8

def ataCmdRead : Nat := 0x20
def ataCmdWrite : Nat := 0x30
def ataCmdFlush : Nat := 0xE7
/-- A write to a port. Bit 2 of the control register resets the drive. -/
def outb (d : AtaDrive) (port val : Nat) : AtaDrive :=
  if port = ataCtrl then if val / 4 % 2 = 1 then d.begin .ready else d
  else if 0 < d.busy ∨ d.phase.transfers then d
  else if port = ataBase + ataCmd then d.command val
  else if port = ataBase + ataDriveSel then { d with drive := val }
  else if port = ataBase + ataCount then { d with count := val }
  else if port = ataBase + ataLba0 then { d with lba0 := val }
  else if port = ataBase + ataLba1 then { d with lba1 := val }
  else if port = ataBase + ataLba2 then { d with lba2 := val }
  else d

/-- A read of the status, at either of its ports. -/
def inbStatus (d : AtaDrive) : BitVec 8 × AtaDrive := (d.statusOf, { d with busy := d.busy - 1 })

/-- A read of the data port. -/
def inw (d : AtaDrive) : Nat × AtaDrive :=
  match d.phase with
  | .identify w => (d.identWord w, if w = 255 then d.begin .ready else { d with phase := .identify (w + 1) })
  | .reading lba left w =>
      (d.disk.load (512 * lba + 2 * w) 2, if w = 255 then d.nextSector .reading (lba + 1) (left - 1) else { d with phase := .reading lba left (w + 1) })
  | _ => (0, d)

/-- A write to the data port. A sector is on the disk with its last word. -/
def outw (d : AtaDrive) (val : Nat) : AtaDrive :=
  match d.phase with
  | .writing lba left w =>
      let d := { d with buffer := d.buffer.store (2 * w) 2 val }
      if w = 255 then { d with disk := d.disk.blit (512 * lba) 512 d.buffer }.nextSector .writing (lba + 1) (left - 1)
      else { d with phase := .writing lba left (w + 1) }
  | _ => d

/-! ### The driver -/

/-- The static data of the driver, and the drive. -/
structure Ata where
  drivePresent : Bool
  sectorCount : Nat
  drive : AtaDrive

/-- The 400 ns delay: four reads of the alternate status. -/
def ataDelay (d : AtaDrive) : AtaDrive := (inbStatus (inbStatus (inbStatus (inbStatus d).2).2).2).2

/-- The loop of `ata_wait_bsy`: the timeout when it ends. The test takes one off a timeout of zero too. -/
def waitBsyLoop : Nat → AtaDrive → Nat × AtaDrive
  | 0, d => if (inbStatus d).1 &&& ataSrBsy ≠ 0#8 then (2 ^ 32 - 1, (inbStatus d).2) else (0, (inbStatus d).2)
  | timeout + 1, d =>
      if (inbStatus d).1 &&& ataSrBsy ≠ 0#8 then waitBsyLoop timeout (inbStatus d).2 else (timeout + 1, (inbStatus d).2)

def ataWaitBsy (d : AtaDrive) : Int × AtaDrive := (if 0 < (waitBsyLoop 0x100000 d).1 then 1 else 0, (waitBsyLoop 0x100000 d).2)

/-- The loop of `ata_wait_drq`. -/
def waitDrqLoop : Nat → AtaDrive → Int × AtaDrive
  | 0, d => (-1, d)
  | timeout + 1, d =>
      if (inbStatus d).1 &&& ataSrErr ≠ 0#8 then (-1, (inbStatus d).2)
      else if (inbStatus d).1 &&& ataSrDrq ≠ 0#8 then (0, (inbStatus d).2)
      else waitDrqLoop timeout (inbStatus d).2

def ataWaitDrq (d : AtaDrive) : Int × AtaDrive := waitDrqLoop 0x100000 d

/-- `ata_setup_lba`. -/
def ataSetupLba (d : AtaDrive) (lba count : Nat) : AtaDrive :=
  let d := outb d (ataBase + ataDriveSel) (0xE0 + lba / 2 ^ 24 % 16)
  let d := outb d (ataBase + ataCount) count
  let d := outb d (ataBase + ataLba0) (lba % 2 ^ 8)
  let d := outb d (ataBase + ataLba1) (lba / 2 ^ 8 % 2 ^ 8)
  outb d (ataBase + ataLba2) (lba / 2 ^ 16 % 2 ^ 8)

/-- The inner loop of `ata_read_sectors`: `n` more words, from the `w`th of sector `s` on. -/
def readSectorWords (s : Nat) : Nat → Nat → Memory → AtaDrive → Memory × AtaDrive
  | 0, _, dst, d => (dst, d)
  | n + 1, w, dst, d => readSectorWords s n (w + 1) (dst.store (2 * (s * 256 + w)) 2 (inw d).1) (inw d).2

/-- The outer loop of `ata_read_sectors`: `n` more sectors, from the `s`th on. -/
def readSectorsLoop : Nat → Nat → Memory → AtaDrive → Int × Memory × AtaDrive
  | 0, _, dst, d => (0, dst, d)
  | n + 1, s, dst, d =>
      let (res, d) := ataWaitDrq d
      if res < 0 then (-1, dst, d)
      else
        let (dst, d) := readSectorWords s 256 0 dst d
        readSectorsLoop n (s + 1) dst (ataDelay d)

/-- `ata_read_sectors` with a buffer, which comes back as it is then. -/
def ataReadSectors (a : Ata) (lba count : Nat) (dst : Memory) : Int × Memory × Ata :=
  if !a.drivePresent ∨ count = 0 then (-1, dst, a)
  else
    let (ok, d) := ataWaitBsy a.drive
    if ok = 0 then (-1, dst, { a with drive := d })
    else
      let (res, dst, d) := readSectorsLoop count 0 dst (outb (ataSetupLba d lba count) (ataBase + ataCmd) ataCmdRead)
      (res, dst, { a with drive := d })

/-- The inner loop of `ata_write_sectors`. -/
def writeSectorWords (s : Nat) (src : Memory) : Nat → Nat → AtaDrive → AtaDrive
  | 0, _, d => d
  | n + 1, w, d => writeSectorWords s src n (w + 1) (outw d (src.load (2 * (s * 256 + w)) 2))

/-- The outer loop of `ata_write_sectors`. -/
def writeSectorsLoop (src : Memory) : Nat → Nat → AtaDrive → Int × AtaDrive
  | 0, _, d => (0, d)
  | n + 1, s, d =>
      let (res, d) := ataWaitDrq d
      if res < 0 then (-1, d) else writeSectorsLoop src n (s + 1) (writeSectorWords s src 256 0 d)

def ataWriteSectors (a : Ata) (lba count : Nat) (src : Memory) : Int × Ata :=
  if !a.drivePresent ∨ count = 0 then (-1, a)
  else
    let (ok, d) := ataWaitBsy a.drive
    if ok = 0 then (-1, { a with drive := d })
    else
      let (res, d) := writeSectorsLoop src count 0 (outb (ataSetupLba d lba count) (ataBase + ataCmd) ataCmdWrite)
      if res < 0 then (-1, { a with drive := d })
      else
        let (ok, d) := ataWaitBsy (outb d (ataBase + ataCmd) ataCmdFlush)
        (if ok = 0 then -1 else 0, { a with drive := d })

end Tsukasa
