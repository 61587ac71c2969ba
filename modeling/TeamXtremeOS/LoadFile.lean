/-
  `loadFile.c`: the host program that copies a file into the floppy image.

  The image is the disk itself, sector by sector; the files it works on have
  been opened.  The program keeps its own copies of the map and the directory
  and writes them back at the end only.
-/
import TeamXtremeOS.FileSystem

namespace TeamXtremeOS

/-! ## The host file -/

/-- An open file: the bytes ahead, and whether a read has gone past the end. -/
structure Stream where
  rest : List UInt8
  eof : Bool

/-- `char c = fgetc(…)`: past the end that is the byte of `EOF`. -/
def fgetc : Stream → UInt8 × Stream
  | ⟨[], _⟩ => (0xFF, ⟨[], true⟩)
  | ⟨c :: cs, eof⟩ => (c, ⟨cs, eof⟩)

/-- `data[i] = c`. -/
def putByte (data : Sector) (i : ℕ) (c : UInt8) : Sector := fun p => if p.val = i then c else data p

/-- The loop that fills a sector from its `i`-th byte on; the first argument
    counts the turns left.  What it does not reach stays in the sector. -/
def fillSector : ℕ → ℕ → Stream → Sector → Stream × Sector
  | 0, _, loadFil, data => (loadFil, data)
  | r + 1, i, loadFil, data =>
    if loadFil.eof then (loadFil, putByte data i 0x0)
    else
      let (c, loadFil) := fgetc loadFil
      fillSector r (i + 1) loadFil (putByte data i c)

/-! ## The directory and the map -/

/-- The loop that copies the name; it ends at a zero byte. -/
def copyName (e : Fin 16) (argv : Buffer) : ℕ → ℕ → Sector → Sector
  | 0, _, dir => dir
  | r + 1, i, dir =>
    if argv i = 0 then dir
    else copyName e argv r (i + 1) (Function.update dir (entryByte e i) (argv i))

/-- The free map entry the search finds. -/
@[irreducible] def freeSector (map : Sector) : Option (Fin 512) :=
  (List.finRange 512).find? fun i => i.val < 256 ∧ map i = 0

/-- What the program holds while it copies the file. -/
structure Load where
  map : Sector
  dir : Sector
  floppy : Disk

/-- The loop over the sectors of the file; the first argument is the room left
    in the directory entry, the second is `sectcount`.  The result has the
    message with which the loop is left, if it does not come to its end. -/
def loadSectors (e : Fin 16) : ℕ → ℕ → Stream → Load → Option String × Load
  | room, sectcount, loadFil, l =>
    if loadFil.eof then (none, l)
    else match room with
      | 0 => (some "Not enough space in directory entry for file", l)
      | room + 1 => match freeSector l.map with
        | none => (some "Not enough room for file", l)
        | some i =>
          let filled := fillSector 512 0 loadFil (l.floppy i.val)
          loadSectors e room (sectcount + 1) filled.1
            { map := Function.update l.map i 0xFF
              dir := Function.update l.dir (entryByte e (6 + sectcount)) (UInt8.ofNat i.val)
              floppy := Function.update l.floppy i.val filled.2 }

/-- `main` of `loadFile.c` on the file `argv[1]` with the given contents: the
    message it stops with, if any, and the image. -/
def loadFile (argv : Buffer) (contents : List UInt8) (floppy : Disk) : Option String × Disk :=
  let map := floppy 1
  let dir := floppy 2
  match freeEntry dir with
  | none => (some "Not enough room in directory", floppy)
  | some e =>
    let dir := setName e (fun _ => 0x00) dir
    let dir := copyName e argv 6 0 dir
    match loadSectors e 26 0 ⟨contents, false⟩ ⟨map, dir, floppy⟩ with
    | (some message, l) => (some message, l.floppy)
    | (none, l) => (none, Function.update (Function.update l.floppy 1 l.map) 2 l.dir)

end TeamXtremeOS
