/-
  The file system of `kernel.c`: the directory in sector 2, the disk map in
  sector 1, and `findFile`, `readFile`, `writeFile`, `deleteFile`.

  The directory is the raw sector the code works on: the loops over a sector
  list stop at a zero byte only, and may run on into the next entries.  A loop
  that leaves the 512-byte buffer has no result.
-/
import TeamXtremeOS.Disk

namespace TeamXtremeOS

open Lib

/-- The six bytes of a file name. -/
abbrev FileName := Fin 6 → UInt8

/-- A name that a file can have: an entry whose name starts with a zero byte
    is not in use. -/
def Named (fname : FileName) : Prop := fname 0 ≠ 0

instance (fname : FileName) : Decidable (Named fname) := inferInstanceAs (Decidable (_ ≠ _))

/-- A name of one letter. -/
def letter (c : UInt8) : FileName := fun j => if j = 0 then c else 0

/-- The memory behind a pointer, by offset. -/
abbrev Buffer := ℕ → UInt8

/-- The offset of `&buf[k*512]`, in the 64 KB of a segment. -/
def bufOffset (k : ℕ) : ℕ := k * 512 % 65536

/-- The 512 bytes at `&buf[k*512]`. -/
def chunk (buf : Buffer) (k : ℕ) : Sector := fun i => buf (bufOffset k + i)

/-- Store 512 bytes at `&buf[k*512]`. -/
def putChunk (buf : Buffer) (k : ℕ) (data : Sector) : Buffer := fun o =>
  if h : bufOffset k ≤ o ∧ o < bufOffset k + 512 then data ⟨o - bufOffset k, by omega⟩ else buf o

/-! ## The directory -/

/-- The position of byte `o` of a directory entry: `name` is at `0..5` and
    `sectors` at `6..31`. -/
def entryByte (e : Fin 16) (o : ℕ) : Fin 512 := Fin.ofNat 512 (32 * e.val + o)

/-- `dir->entries[e].name[l]`. -/
def nameByte (dir : Sector) (e : Fin 16) (l : ℕ) : UInt8 := dir (entryByte e l)

/-- `dir->entries[e].sectors[j]`. -/
def sectorByte (dir : Sector) (e : Fin 16) (j : ℕ) : UInt8 := dir (entryByte e (6 + j))

/-- The position of a sector in the disk map. -/
def mapIndex (s : UInt8) : Fin 512 := ⟨s.toNat, by have := s.toNat_lt; omega⟩

/-- `findFile`, `none` for its `-1`. -/
def findFile (fileName : FileName) (dir : Sector) : Option (Fin 16) :=
  (List.finRange 16).find? fun i =>
    nameByte dir i 0 = fileName 0 ∧
      (List.finRange 6).foldl (fun (z : Int16) j =>
        if nameByte dir i j.val ≠ fileName j then -1 else z) 0 = 0

/-- The first entry that is not in use. -/
def freeEntry (dir : Sector) : Option (Fin 16) :=
  (List.finRange 16).find? fun i => nameByte dir i 0 = 0

/-! ## Reading -/

/-- The loop of `readFile` over the sector list of entry `i`. -/
def readLoop (dir : Sector) (i : Fin 16) : ℕ → ℕ → Buffer → DiskProg (Int16 × Buffer)
  | 0, _, _ => .fail
  | fuel + 1, k, buf =>
    if h : 32 * i.val + 6 + k < 512 then
      let s := dir ⟨32 * i.val + 6 + k, h⟩
      if s = 0 then return (Int16.ofNat k, buf)
      else do
        let data ← readSector (chunk buf k) (ofChar s)
        readLoop dir i fuel (k + 1) (putChunk buf k data)
    else .fail

/-- `readFile`, with its own copy of the search: the returned value and the
    buffer afterwards. -/
def readFile (fileName : FileName) (buf : Buffer) : DiskProg (Int16 × Buffer) := do
  let dir ← readSector (fun _ => 0) 2
  let entry := (List.finRange 16).find? fun i =>
    nameByte dir i 0 = fileName 0 ∧
      (List.finRange 6).foldl (fun (z : Int16) j =>
        if nameByte dir i j.val ≠ fileName j then 1 else z) 0 = 0
  match entry with
  | some i => readLoop dir i 512 0 buf
  | none => return (-1, buf)

/-! ## Deleting -/

/-- The loop of `deleteFile` over the sector list of entry `e`: it clears the
    bytes it walks over, and their positions in the map. -/
def deleteLoop (e : Fin 16) : ℕ → ℕ → Sector → Sector → Option (Sector × Sector)
  | 0, _, _, _ => none
  | fuel + 1, j, dir, diskMap =>
    if h : 32 * e.val + 6 + j < 512 then
      let s := dir ⟨32 * e.val + 6 + j, h⟩
      if s = 0 then some (dir, diskMap)
      else deleteLoop e fuel (j + 1) (Function.update dir ⟨32 * e.val + 6 + j, h⟩ 0)
        (Function.update diskMap (mapIndex s) 0)
    else none

def deleteFile (fname : FileName) : DiskProg Int16 := do
  let dir ← readSector (fun _ => 0) 2
  let entry := findFile fname dir
  let diskMap ← readSector (fun _ => 0) 1
  match entry with
  | none => return -1
  | some e =>
    let dir := Function.update dir (entryByte e 0) 0
    let (dir, diskMap) ← Prog.ofOption (deleteLoop e 512 0 dir diskMap)
    writeSector dir 2
    writeSector diskMap 1
    return 1

/-! ## Writing -/

/-- The search for unused sectors: how many were found, and `unusedSectors`. -/
def findUnused (diskMap : Sector) (sectors : ℕ) :
    List (Fin 512) → ℕ → (ℕ → Int16) → ℕ × (ℕ → Int16)
  | [], k, unused => (k, unused)
  | j :: js, k, unused =>
    if k < sectors then
      if diskMap j = 0 then
        findUnused diskMap sectors js (k + 1) (Function.update unused k (Int16.ofNat j.val))
      else findUnused diskMap sectors js k unused
    else (k, unused)

/-- Write a name in an entry of the directory. -/
def setName (e : Fin 16) (fname : FileName) (dir : Sector) : Sector :=
  (List.finRange 6).foldl (fun dir l => Function.update dir (entryByte e l.val) (fname l)) dir

/-- Mark `unusedSectors[m]`, … as taken, in the disk map and in the entry; the
    first argument counts the turns left.  An index outside the map is a store
    outside `diskMap`. -/
def markSectors (e : Fin 16) (unused : ℕ → Int16) :
    ℕ → ℕ → Sector → Sector → Option (Sector × Sector)
  | 0, _, dir, diskMap => some (dir, diskMap)
  | r + 1, m, dir, diskMap =>
    if h : 0 ≤ (unused m).toInt ∧ (unused m).toInt < 512 then
      markSectors e unused r (m + 1) (Function.update dir (entryByte e (6 + m)) (toChar (unused m)))
        (Function.update diskMap ⟨(unused m).toInt.toNat, by omega⟩ 0xFF)
    else none

/-- Write the buffer to the sectors of the entry, from the `z`-th on; the
    first argument counts the turns left. -/
def writeData (buffer : Buffer) (dir : Sector) (e : Fin 16) : ℕ → ℕ → DiskProg Unit
  | 0, _ => return ()
  | r + 1, z => do
    writeSector (chunk buffer z) (ofChar (sectorByte dir e z))
    writeData buffer dir e r (z + 1)

/-- `writeFile`; the last argument is what the local array `unusedSectors`
    holds before it is filled. -/
def writeFile (fname : FileName) (buffer : Buffer) (sectors : Int16) (unusedSectors : ℕ → Int16) :
    DiskProg Int16 := do
  let dir ← readSector (fun _ => 0) 2
  let diskMap ← readSector (fun _ => 0) 1
  let sectors := if sectors > 26 then 26 else sectors
  let writingEntry := match findFile fname dir with
    | some e => some e
    | none => freeEntry dir
  match writingEntry with
  | none => return -1
  | some e =>
    -- the loops below count from 0 up to `sectors`
    let n := sectors.toNatClampNeg
    let (k, unused) := findUnused diskMap n (List.finRange 512) 0 unusedSectors
    let dir := setName e fname dir
    let (dir, diskMap) ← Prog.ofOption (markSectors e unused n 0 dir diskMap)
    writeData buffer dir e k 0
    writeSector dir 2
    writeSector diskMap 1
    if k < n then return -2 else return Int16.ofNat k

end TeamXtremeOS
