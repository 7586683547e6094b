import VkKernel.BlockLayer

/-!
# ATA drives

`ata_read_flexible` and `ata_write_flexible` with the PIO and the DMA transfers
below them. The device is a disk, the PRDT buffer and what it answers to each
transfer; a call of a transfer function is numbered by the calls before it.
-/

namespace VkKernel.Ata
open ByteMemory IntervalUpdate

def atapiSectorSize : ℕ := 2048

/-! ## The device -/

/-- The answers to one transfer: the status bytes that its polls read, whether
another process holds the mutex of the drive, what the packet command of a CD
drive returns, and the registers at the end of a DMA transfer. -/
structure Attempt where
  status : ℕ → ℕ → ℕ
  locked : Bool
  packet : ErrorT
  endStatus : ℕ
  endDiskStatus : ℕ

structure Drive where
  atapi : Bool
  lba48 : Bool
  schedulerStarted : Bool
  attempts : ℕ → Attempt

/-- The bytes that nothing determines, for each transfer: what the data port
gives behind the delivered sectors, the PRDT buffer after a failed read, the
disk after a failed write, and the memory of the buffers from `kmalloc`. -/
structure Leftover where
  port : ℕ → Mem
  buffer : ℕ → Mem
  disk : ℕ → Mem
  cache : ℕ → Mem

/-- `buffer` is the PRDT buffer behind its descriptor, `memory` the memory from
the address `data` on. -/
structure State where
  disk : Mem
  buffer : Mem
  memory : Mem
  transfers : ℕ

/-- The drive has delivered `scount` sectors of `bps` bytes; `rest` follows. -/
def delivered (disk : Mem) (bps sector scount : ℕ) (rest : Mem) : Mem := fun j =>
  if j < bps * scount then disk (bps * sector + j) else rest j

/-- `busy` and neither data, fault nor error. -/
def keepsPolling (status : ℕ) : Prop :=
  status &&& 0x80 = 0x80 ∧ status &&& 0x8 ≠ 0x8 ∧ status &&& 0x01 ≠ 0x01 ∧ status &&& 0x20 ≠ 0x20

instance (status : ℕ) : Decidable (keepsPolling status) := inferInstanceAs (Decidable (_ ∧ _))

/-- The polling loop: the last status and the number of repetitions. -/
def pollLoop (status : ℕ → ℕ) : ℕ → ℕ → ℕ × ℕ
  | 0, times => (status times, times)
  | fuel + 1, times =>
    if keepsPolling (status times) then pollLoop status fuel (times + 1) else (status times, times)

/-- `ata_pio_poll_status` on a sequence of status bytes. -/
def pioPollStatus (status : ℕ → ℕ) : ErrorT :=
  let (last, times) := pollLoop status 0xFFFFF 0
  if last &&& 0x20 ≠ 0 then .diskUnreachable
  else if times = 0xFFFFF then .diskBusy
  else if last &&& 0x1 ≠ 0 then .diskUnreachable
  else .none

/-- The checks on the sector before `ata_cmd_48` and `ata_cmd_28`. -/
def checkSector (lba48 : Bool) (sector : ℕ) : ErrorT :=
  if sector > 2 ^ 32 - 1 then
    if ¬lba48 then .diskOut
    else if sector &&& 0xFFFF000000000000 ≠ 0 then .diskOut
    else .none
  else if sector &&& 0xF0000000 ≠ 0 then .diskOut
  else .none

def sectorCount (bps count : ℕ) : ℕ :=
  u32 (u32 (count / bps) + if count % bps = 0 then 0 else 1)

/-- A DMA transfer has ended without an error. -/
def Attempt.dmaOk (a : Attempt) : Prop :=
  a.endStatus &&& 5 ≠ 0 ∧ a.endStatus &&& 2 = 0 ∧ a.endDiskStatus &&& 1 = 0

instance (a : Attempt) : Decidable a.dmaOk := inferInstanceAs (Decidable (_ ∧ _))

/-- The result of poll number `n` of a PIO transfer. -/
def Attempt.poll (a : Attempt) (n : ℕ) : ErrorT := pioPollStatus (a.status n)

/-! ## Reads -/

section Transfers
variable (e : Drive) (left : Leftover)

/-- The loop over the words of the data port, with `i` the bytes read so far and
`a` the place of the chunk in the buffer. -/
def pioReadLoop (poll : ℕ → ErrorT) (port : Mem) (offset a count : ℕ) :
    ℕ → ℕ → Mem → ErrorT × Mem
  | 0, _, m => (.none, m)
  | fuel + 1, i, m =>
    if i < count + offset then
      let m :=
        if i + 1 < offset then m
        else
          let m := if i ≥ offset then Function.update m (a + (i - offset)) (port i) else m
          if i + 1 < count + offset then Function.update m (a + (i + 1 - offset)) (port (i + 1))
          else m
      let dataRead := i + 2
      if dataRead % (512 * 2) = 0 ∧ poll (dataRead / (512 * 2)) ≠ .none then
        (poll (dataRead / (512 * 2)), m)
      else pioReadLoop poll port offset a count fuel dataRead m
    else (.none, m)

/-- `ata_pio_read_flexible` into `data + a`. The words that are read up to the
end of a sector afterwards are dropped. -/
def pioReadFlexible (sector offset a count : ℕ) (s : State) : ErrorT × State :=
  if count = 0 then (.none, s)
  else
    let attempt := e.attempts s.transfers
    let port := left.port s.transfers
    let s := { s with transfers := s.transfers + 1 }
    let scount := sectorCount bytesPerSector count
    if scount > 255 then (.diskInternal, s)
    else if checkSector e.lba48 sector ≠ .none then (checkSector e.lba48 sector, s)
    else if attempt.poll 0 ≠ .none then (attempt.poll 0, s)
    else
      let r := pioReadLoop attempt.poll (delivered s.disk bytesPerSector sector scount port)
        offset a count (count + offset) 0 s.memory
      (r.1, { s with memory := r.2 })

/-- `ata_dma_read_flexible` up to the copy out of the PRDT buffer: the result,
and whether the copy is reached. The mutex may be `owned` by the caller. -/
def dmaTransfer (owned : Bool) (sector count : ℕ) (s : State) : ErrorT × Bool × State :=
  if count = 0 then (.none, false, s)
  else
    let attempt := e.attempts s.transfers
    let failed := left.buffer s.transfers
    let s := { s with transfers := s.transfers + 1 }
    if attempt.locked ∧ ¬owned then (.mutexAlreadyLocked, false, s)
    else
      let bps := if e.atapi then atapiSectorSize else bytesPerSector
      let scount := sectorCount bps count
      if scount > 127 then (.diskInternal, false, s)
      else if scount > 31 ∧ e.atapi then (.diskInternal, false, s)
      else if e.atapi ∧ sector &&& 0xF0000000 ≠ 0 then (.diskOut, false, s)
      else if e.atapi ∧ attempt.packet ≠ .none then (.diskBusy, false, s)
      else if ¬e.atapi ∧ checkSector e.lba48 sector ≠ .none then
        (checkSector e.lba48 sector, false, s)
      else if attempt.dmaOk then
        (.none, true, { s with
          buffer := overwrite s.buffer 0 (bps * scount) fun j => s.disk (bps * sector + j) })
      else (.diskInternal, true, { s with buffer := failed })

/-- `ata_dma_read_flexible` into `data + a`. The PRDT buffer is copied before the
status is looked at. -/
def dmaReadFlexible (sector offset a count : ℕ) (s : State) : ErrorT × State :=
  let (err, reached, s) := dmaTransfer e left false sector count s
  if reached then
    (err, { s with memory := overwrite s.memory a count fun i => s.buffer (offset + i) })
  else (err, s)

end Transfers

/-- Try, and try again twice. -/
def thrice (first retry : State → ErrorT × State) (s : State) : ErrorT × State :=
  let r := first s
  if r.1 = .none then r
  else
    let r := retry r.2
    if r.1 = .none then r else retry r.2

/-- The chunks of `ata_read_flexible`: `chunk` sectors of `bps` bytes each, the
last one retried with `lastRetry` bytes. `asect` and `a` are the sectors and the
bytes that are done. -/
def readChunks (read : ℕ → ℕ → ℕ → ℕ → State → ErrorT × State) (bps chunk : ℕ)
    (lastRetry : ℕ → ℕ) (sectorAt : ℕ → ℕ) : ℕ → ℕ → ℕ → ℕ → ℕ → State → ErrorT × State
  | 0, _, _, _, _, s => (.unknown, s)
  | fuel + 1, offset, a, asect, count, s =>
    if count > chunk * bps then
      let transfer := read (sectorAt asect) offset a (chunk * bps)
      let r := thrice transfer transfer s
      if r.1 ≠ .none then r
      else
        readChunks read bps chunk lastRetry sectorAt fuel 0 (u32 (a + chunk * bps))
          (u32 (asect + chunk)) (count - chunk * bps) r.2
    else
      thrice (read (sectorAt asect) offset a count)
        (read (sectorAt asect) offset a (lastRetry count)) s

/-- `ata_read_flexible`. The last chunk of a PIO read and of a read of a CD is
retried with the size of a full chunk. -/
def ataReadFlexible (e : Drive) (left : Leftover) (sector offset count : ℕ) (s : State) :
    ErrorT × State :=
  if e.atapi then
    let sector := sector + offset / atapiSectorSize
    readChunks (dmaReadFlexible e left) atapiSectorSize 31 (fun _ => 31 * atapiSectorSize)
      (fun asect => u32 (u32 sector + asect)) (count + 1) (offset % atapiSectorSize) 0 0 count s
  else
    let sector := sector + offset / bytesPerSector
    let offset := offset % bytesPerSector
    if ¬e.schedulerStarted ∨ count ≤ 1024 then
      readChunks (pioReadFlexible e left) bytesPerSector 255 (fun _ => 255 * bytesPerSector)
        (fun asect => sector + asect) (count + 1) offset 0 0 count s
    else
      readChunks (dmaReadFlexible e left) bytesPerSector 127 id
        (fun asect => u32 (u32 sector + asect)) (count + 1) offset 0 0 count s

/-! ## Writes -/

/-- A loop that sends one word for each even `i` below the bound; `out` holds the
bytes sent so far. -/
def wordLoop (word : ℕ → UInt8 × UInt8) (bound : ℕ) : ℕ → ℕ → Mem → Mem
  | 0, _, out => out
  | fuel + 1, i, out =>
    if i < bound then
      wordLoop word bound fuel (i + 2)
        (Function.update (Function.update out i (word i).1) (i + 1) (word i).2)
    else out

/-- The word at `i` while the request is sent. The second half of the last word
is zero if the request ends before it. -/
def requestWord (cachedF data : Mem) (offset a count i : ℕ) : UInt8 × UInt8 :=
  if i + 1 < offset then (cachedF i, cachedF (i + 1))
  else
    (if i ≥ offset then data (a + (i - offset)) else cachedF i,
      if i + 1 < count + offset then data (a + (i + 1 - offset)) else 0)

section Transfers
variable (e : Drive) (left : Leftover)

/-- A sector is read into a buffer from `kmalloc`, and errors are ignored. -/
def pioCache (sector : ℕ) (s : State) : Mem × State :=
  let r := (pioReadFlexible e left sector 0 0 bytesPerSector
    { s with memory := left.cache s.transfers }).2
  (r.memory, { r with memory := s.memory })

/-- `ata_pio_write_flexible` from `data + a`. -/
def pioWriteFlexible (data : Mem) (sector offset a count : ℕ) (s : State) : ErrorT × State :=
  let scount := sectorCount bytesPerSector count
  let (cachedF, s) :=
    if offset ≠ 0 ∨ count % 512 ≠ 0 then pioCache e left sector s else (fun _ => 0, s)
  let lastSector := sector + count / 512 * 512
  let (cachedL, s) :=
    if lastSector ≠ sector ∧ count % 512 ≠ 0 then pioCache e left lastSector s
    else (fun _ => 0, s)
  if checkSector e.lba48 sector ≠ .none then (checkSector e.lba48 sector, s)
  else
    let sent := wordLoop (requestWord cachedF data offset a count) (count + offset)
      (count + offset) 0 fun _ => 0
    let cached := if lastSector = sector then cachedF else cachedL
    let sent := wordLoop (fun i => (cached i, cached (i + 1))) (bytesPerSector * scount)
      (bytesPerSector * scount) (count + offset + (count + offset) % 2) sent
    let status := (e.attempts s.transfers).poll 0
    (status, { s with
      disk := if status = .none then
          overwrite s.disk (bytesPerSector * sector) (bytesPerSector * scount) sent
        else left.disk s.transfers
      transfers := s.transfers + 1 })

/-- `ata_dma_write_flexible` from `data + a`. The cached sectors are not used, but
the reads go through the PRDT buffer, and the first one releases the mutex. -/
def dmaWriteFlexible (data : Mem) (sector offset a count : ℕ) (s : State) : ErrorT × State :=
  if count = 0 then (.none, s)
  else
    let attempt := e.attempts s.transfers
    let failed := left.disk s.transfers
    let s := { s with transfers := s.transfers + 1 }
    if attempt.locked then (.mutexAlreadyLocked, s)
    else
      let scount := sectorCount bytesPerSector count
      let s :=
        if offset ≠ 0 ∨ count % 512 ≠ 0 then (dmaTransfer e left true sector bytesPerSector s).2.2
        else s
      let lastSector := sector + count / 512 * 512
      let s :=
        if lastSector ≠ sector ∧ count % 512 ≠ 0 then
          (dmaTransfer e left false lastSector bytesPerSector s).2.2
        else s
      let s := { s with buffer := overwrite s.buffer offset count fun i => data (a + i) }
      if checkSector e.lba48 sector ≠ .none then (checkSector e.lba48 sector, s)
      else if attempt.dmaOk then
        (.none, { s with
          disk := overwrite s.disk (bytesPerSector * sector) (bytesPerSector * scount) s.buffer })
      else (.diskInternal, { s with disk := failed })

end Transfers

/-- `while(offset>BYTES_PER_SECTOR) {offset-=BYTES_PER_SECTOR; sector++;}` -/
def skipSectors : ℕ → ℕ → ℕ → ℕ × ℕ
  | 0, sector, offset => (sector, offset)
  | fuel + 1, sector, offset =>
    if offset > bytesPerSector then skipSectors fuel (sector + 1) (offset - bytesPerSector)
    else (sector, offset)

/-- The chunks of `ata_write_flexible`; nothing is retried. -/
def writeChunks (write : ℕ → ℕ → ℕ → ℕ → State → ErrorT × State) (chunk : ℕ)
    (sectorAt : ℕ → ℕ) : ℕ → ℕ → ℕ → ℕ → ℕ → State → ErrorT × State
  | 0, _, _, _, _, s => (.unknown, s)
  | fuel + 1, offset, a, asect, count, s =>
    if count > chunk * bytesPerSector then
      let r := write (sectorAt asect) offset a (chunk * bytesPerSector) s
      if r.1 ≠ .none then r
      else
        writeChunks write chunk sectorAt fuel 0 (u32 (a + chunk * bytesPerSector))
          (u32 (asect + chunk)) (count - chunk * bytesPerSector) r.2
    else write (sectorAt asect) offset a count s

def ataWriteFlexible (e : Drive) (left : Leftover) (data : Mem) (sector offset count : ℕ)
    (s : State) : ErrorT × State :=
  if e.atapi then (.diskInternal, s)
  else
    let (sector, offset) := skipSectors offset sector offset
    if ¬e.schedulerStarted then
      writeChunks (pioWriteFlexible e left data) 255 (fun asect => sector + asect) (count + 1)
        offset 0 0 count s
    else
      writeChunks (dmaWriteFlexible e left data) 127 (fun asect => u32 (u32 sector + asect))
        (count + 1) offset 0 0 count s

end VkKernel.Ata
