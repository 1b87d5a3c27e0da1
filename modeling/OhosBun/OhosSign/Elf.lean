/-
# `OhosBun.OhosSign.Elf` — signing an ELF file

The section-header table of an ELF64 file is searched for `.codesign`, a section of that
name is taken out (`strip`), or put in at the first page past the sections, with a new
string table and a new section-header table behind it (`injectCodesignSection`), and
`sign` writes the hash tree's root and the signature into it.

Offsets and sizes come from the file.  Arithmetic on them panics when it overflows, as it
does in a build with overflow checks, and so does an index past the end of the file and a
vector longer than `isize::MAX`.
-/
import OhosBun.OhosSign.Merkle

namespace OhosBun.OhosSign

open OhosBun.Lib Outcome Merkle

def CODESIGN_NAME : Bytes := [0x2e, 0x63, 0x6f, 0x64, 0x65, 0x73, 0x69, 0x67, 0x6e, 0]

inductive SignError
  | notElf64
  | noSectionHeaders
  | shstrtabOutOfBounds
  | alreadySigned
deriving DecidableEq

abbrev Res := Outcome SignError

def E_SHOFF : Nat := 0x28
def E_SHENTSIZE : Nat := 0x3a
def E_SHNUM : Nat := 0x3c
def E_SHSTRNDX : Nat := 0x3e

/-- What the header says of the section-header table. -/
structure Header where
  shoff : Nat
  shnum : Nat
  shstrndx : Nat
deriving DecidableEq

/-- The first bound that no vector's length reaches. -/
def maxLen : Nat := 2 ^ 63

/-- A vector of this many bytes. -/
def alloc (bs : Bytes) : Res Bytes := if bs.length < maxLen then .ok bs else .panic

def alignUp (v a : Nat) : Res Nat := do
  let sum ← add64 v a
  let sum ← sub sum 1
  mul64 (sum / a) a

/-- The offset of an entry of the section-header table. -/
def entryAt (shoff i : Nat) : Res Nat := do
  let rel ← mul64 i 64
  add64 shoff rel

/-- A field of an entry. -/
def readField (elf : Bytes) (e off len : Nat) : Res Nat := do
  let at' ← add64 e off
  readLe elf at' len

def writeField (elf : Bytes) (e off : Nat) (new : Bytes) : Res Bytes := do
  let at' ← add64 e off
  write elf at' new

/-- An ELF64 file begins with the magic number and class 2. -/
def isElf64 (elf : Bytes) : Bool :=
  64 ≤ elf.length ∧ window elf 0 4 = [0x7f, 0x45, 0x4c, 0x46] ∧ elf[4]? = some 2

/-- Validates the header; the section-header table is inside the file. -/
def parseHeader (elf : Bytes) : Res Header := do
  if ¬ isElf64 elf then .err .notElf64
  else
    let shoff ← readLe elf E_SHOFF 8
    let shentsize ← readLe elf E_SHENTSIZE 2
    let shnum ← readLe elf E_SHNUM 2
    let shstrndx ← readLe elf E_SHSTRNDX 2
    if shentsize ≠ 64 ∨ shoff = 0 ∨ shnum = 0 ∨ shnum ≤ shstrndx then .err .noSectionHeaders
    else
      let table ← mul64 shnum 64
      -- `checked_add`, and the bound
      if 2 ^ 64 ≤ shoff + table ∨ elf.length < shoff + table then .err .noSectionHeaders
      else .ok ⟨shoff, shnum, shstrndx⟩

/-- Looks for a name from entry `i` on. -/
def findLoop (elf : Bytes) (h : Header) (shstrOff shstrSz : Nat) (name : Bytes) :
    Nat → Nat → Res (Option Nat)
  | _, 0 => .ok none
  | i, k + 1 => do
    let e ← entryAt h.shoff i
    let nameOff ← readLe elf e 4
    let nameEnd ← add64 nameOff name.length
    if nameEnd ≤ shstrSz then
      let start ← add64 shstrOff nameOff
      let found ← read elf start name.length
      if found = name then .ok (some e) else findLoop elf h shstrOff shstrSz name (i + 1) k
    else findLoop elf h shstrOff shstrSz name (i + 1) k

/-- The offset of the first entry with a name in the string table. -/
def findSectionByName (elf : Bytes) (h : Header) (name : Bytes) : Res (Option Nat) := do
  let shstrE ← entryAt h.shoff h.shstrndx
  let shstrOff ← readField elf shstrE 24 8
  let shstrSz ← readField elf shstrE 32 8
  let shstrEnd ← add64 shstrOff shstrSz
  if elf.length < shstrEnd then .ok none
  else findLoop elf h shstrOff shstrSz name 0 h.shnum

def hasCodesignSection (elf : Bytes) : Res Bool :=
  match parseHeader elf with
  | .panic => .panic
  | .err _ => .ok false
  | .ok h => do
    let found ← findSectionByName elf h CODESIGN_NAME
    .ok found.isSome

/-! ## Taking the section out -/

/-- The entries of the table from `i` on, without the one of the section. -/
def keepEntries (elf : Bytes) (shoff csIdx : Nat) : Nat → Nat → Res Bytes
  | _, 0 => .ok []
  | i, k + 1 =>
    if i = csIdx then keepEntries elf shoff csIdx (i + 1) k
    else do
      let e ← entryAt shoff i
      let entry ← read elf e 64
      let rest ← keepEntries elf shoff csIdx (i + 1) k
      .ok (entry ++ rest)

/-- Moves the names behind the removed one forward, from entry `i` of the new table on. -/
def shiftNames (shtOff csNameOff : Nat) : Nat → Nat → Bytes → Res Bytes
  | _, 0, elf => .ok elf
  | i, k + 1, elf => do
    let e ← entryAt shtOff i
    let noff ← readLe elf e 4
    if csNameOff < noff then
      let newNoff ← sub noff CODESIGN_NAME.length
      let elf ← write elf e (leBytes 4 newNoff)
      shiftNames shtOff csNameOff (i + 1) k elf
    else shiftNames shtOff csNameOff (i + 1) k elf

/-- The string table without the bytes of the section's name. -/
def drainName (shstr : Bytes) (csNameOff : Nat) : Bytes :=
  if csNameOff + CODESIGN_NAME.length ≤ shstr.length then
    shstr.take csNameOff ++ shstr.drop (csNameOff + CODESIGN_NAME.length)
  else shstr

/-- The index of the string table's entry, which shifts if it was not before the removed one. -/
def shiftedIndex (shstrndx csIdx : Nat) : Res Nat :=
  if shstrndx < csIdx then .ok shstrndx else sub shstrndx 1

/-- The file cut off at the section, with the new string table and section-header table
behind it.  The data of the section is taken to be the last of the file. -/
def rebuildStripped (elf : Bytes) (h : Header) (csIdx csNameOff csSecOff newShnum : Nat)
    (newShstr newSht : Bytes) : Res Bytes := do
  let newShstrOff := min csSecOff elf.length
  let buf ← alloc (elf.take newShstrOff ++ newShstr)
  let newShtOff ← alignUp buf.length 8
  let buf ← alloc (buf ++ List.replicate (newShtOff - buf.length) 0 ++ newSht)
  let newShstrndx ← shiftedIndex h.shstrndx csIdx
  let shstrE ← entryAt newShtOff newShstrndx
  let buf ← writeField buf shstrE 24 (leBytes 8 newShstrOff)
  let buf ← writeField buf shstrE 32 (leBytes 8 newShstr.length)
  let buf ← shiftNames newShtOff csNameOff 0 newShnum buf
  let buf ← write buf E_SHOFF (leBytes 8 newShtOff)
  let buf ← write buf E_SHNUM (leBytes 2 newShnum)
  if csIdx < h.shstrndx then write buf E_SHSTRNDX (leBytes 2 (h.shstrndx - 1)) else .ok buf

/-- Takes the `.codesign` section out, with its name; whether there was one, and the file. -/
def strip (elf : Bytes) : Res (Bool × Bytes) := do
  let h ← parseHeader elf
  let found ← findSectionByName elf h CODESIGN_NAME
  match found with
  | none => .ok (false, elf)
  | some csEntryOff => do
    let csRel ← sub csEntryOff h.shoff
    let csIdx := csRel / 64
    let shstrE ← entryAt h.shoff h.shstrndx
    let shstrOff ← readField elf shstrE 24 8
    let shstrSz ← readField elf shstrE 32 8
    let shstrEnd ← add64 shstrOff shstrSz
    if elf.length < shstrEnd then .err .shstrtabOutOfBounds
    else
      let csNameOff ← readLe elf csEntryOff 4
      let shstr ← read elf shstrOff shstrSz
      let newShstr := drainName shstr csNameOff
      let newShnum ← sub h.shnum 1
      let newSht ← keepEntries elf h.shoff csIdx 0 h.shnum
      let csSecOff ← readField elf csEntryOff 24 8
      let _csSecSz ← readField elf csEntryOff 32 8
      let buf ← rebuildStripped elf h csIdx csNameOff csSecOff newShnum newShstr newSht
      .ok (true, buf)

/-! ## Putting the section in -/

/-- The bytes a section takes in the file: none with `SHT_NOBITS`. -/
def sectionSize (elf : Bytes) (e shType : Nat) : Res Nat :=
  if shType = 8 then .ok 0 else readField elf e 32 8

/-- The last end of the sections from entry `i` on, or `curEnd` if that is later. -/
def sectionEnd (elf : Bytes) (shoff : Nat) : Nat → Nat → Nat → Res Nat
  | _, 0, curEnd => .ok curEnd
  | i, k + 1, curEnd => do
    let e ← entryAt shoff i
    let shType ← readField elf e 4 4
    let off ← readField elf e 24 8
    let sz ← sectionSize elf e shType
    let secEnd ← add64 off sz
    sectionEnd elf shoff (i + 1) k (if curEnd < secEnd then secEnd else curEnd)

/-- The new file: the original up to `csOff`, the section, the string table, the table of
sections, and what has changed in the header. -/
def fillInjected (elf : Bytes) (h : Header) (csOff newShstrOff newShtOff newShnum newTotal
    csShname : Nat) (newShstr : Bytes) : Res Bytes := do
  let buf ← alloc (List.replicate newTotal 0)
  let copyLen := min (min elf.length newTotal) csOff
  let front ← read elf 0 copyLen
  let buf ← write buf 0 front
  let buf ← write buf newShstrOff newShstr
  let shtLen ← mul64 h.shnum 64
  let sht ← read elf h.shoff shtLen
  let buf ← write buf newShtOff sht
  let csE ← entryAt newShtOff h.shnum
  let buf ← write buf csE (leBytes 4 csShname)
  let buf ← writeField buf csE 4 (leBytes 4 1)
  let buf ← writeField buf csE 24 (leBytes 8 csOff)
  let buf ← writeField buf csE 32 (leBytes 8 PAGE)
  let buf ← writeField buf csE 48 (leBytes 8 PAGE)
  let shstrE ← entryAt newShtOff h.shstrndx
  let buf ← writeField buf shstrE 24 (leBytes 8 newShstrOff)
  let buf ← writeField buf shstrE 32 (leBytes 8 newShstr.length)
  let buf ← write buf E_SHOFF (leBytes 8 newShtOff)
  write buf E_SHNUM (leBytes 2 newShnum)

/-- Puts an empty section of a page at the first page past the sections; the file, and the
section's offset. -/
def injectCodesignSection (elf : Bytes) : Res (Bytes × Nat) := do
  let h ← parseHeader elf
  let shstrE ← entryAt h.shoff h.shstrndx
  let shstrOff ← readField elf shstrE 24 8
  let shstrSz ← readField elf shstrE 32 8
  let shstrEnd ← add64 shstrOff shstrSz
  if elf.length < shstrEnd then .err .shstrtabOutOfBounds
  else
    let shtEnd ← entryAt h.shoff h.shnum
    let curEnd ← sectionEnd elf h.shoff 0 h.shnum shtEnd
    let csOff ← alignUp curEnd PAGE
    let shstr ← read elf shstrOff shstrSz
    let newShstr ← alloc (shstr ++ CODESIGN_NAME)
    let newShstrOff ← add64 csOff PAGE
    let newShstrEnd ← add64 newShstrOff newShstr.length
    let newShtOff ← alignUp newShstrEnd 8
    let newShnum ← add16 h.shnum 1
    let newTotal ← entryAt newShtOff newShnum
    -- the name's offset is the old size `as u32`
    let buf ← fillInjected elf h csOff newShstrOff newShtOff newShnum newTotal
      (shstrSz % 2 ^ 32) newShstr
    .ok (buf, csOff)

/-! ## Signing -/

/-- The file that the section is put into. -/
def prepare (elf : Bytes) (force : Bool) : Res Bytes := do
  let signed ← hasCodesignSection elf
  if signed then
    if ¬ force then .err .alreadySigned
    else
      let (_, buf) ← strip elf
      .ok buf
  else .ok elf

/-- What is written into the section: a header, the descriptor and its signature. -/
def payload (fileSize : Nat) (root : Bytes) : Bytes :=
  let signature := Sha256.hash (Descriptor.build 0 fileSize root)
  leBytes 4 Descriptor.ELF_SIGN_INFO_TYPE ++ leBytes 4 (Descriptor.SIZE + 32) ++
    Descriptor.build 32 fileSize root ++ signature

/-- Signs a file; `force` takes a section that is there out first. -/
def sign (elf : Bytes) (force : Bool) : Res Bytes := do
  if ¬ isElf64 elf then .err .notElf64
  else
    let buf ← prepare elf force
    let (tmp, csOff) ← injectCodesignSection buf
    let root := rootHash tmp csOff PAGE
    write tmp csOff (payload tmp.length root)

end OhosBun.OhosSign
