import MerlinV.Lib.Signature

/-! # Signed objects

`tools/merlin-sign`: the digest of the signed region, the `.merlin.sig` section, and the `sign` and
`verify` commands.  An object is what libelf shows of it; libelf, SHA-256 and Ed25519 are parameters.
-/
namespace MerlinV
open Lib

/-- A section as `elf_nextscn` and `gelf_getshdr` show it, with its bytes in the file; `data` is `none`
when these cannot be read. -/
structure ElfSection where
  shName : ℕ
  shType : BitVec 32
  shFlags : BitVec 64
  shSize : ℕ
  shLink : ℕ
  shInfo : ℕ
  shAddralign : ℕ
  shEntsize : ℕ
  data : Option Bytes
  deriving DecidableEq

/-- An object; section `k` of the file is `sections[k - 1]`. -/
structure ElfObject where
  eClass : BitVec 8
  eType : BitVec 16
  eMachine : BitVec 16
  eFlags : BitVec 32
  shstrndx : ℕ
  sections : List ElfSection
  deriving DecidableEq

/-- `SHT_NULL`, `SHT_PROGBITS`, `SHT_STRTAB`, `SHT_NOBITS`, `ET_REL`. -/
def shtNull : BitVec 32 := 0
def shtProgbits : BitVec 32 := 1
def shtStrtab : BitVec 32 := 3
def shtNobits : BitVec 32 := 8
def etRel : BitVec 16 := 1

/-- The buffer `elf_getdata` gives; a section of type `SHT_NOBITS` has none. -/
def ElfSection.getdata (s : ElfSection) : Option Bytes := if s.shType = shtNobits then none else s.data

def cstr (s : String) : Bytes := s.toList.map fun c => BitVec.ofNat 8 c.toNat

section Names

/-- The string at an offset of a string table; it has to end inside the table. -/
def stringAt (tab : Bytes) (off : ℕ) : Option Bytes :=
  let rest := tab.drop off
  if 0 ∈ rest then some (rest.takeWhile (· ≠ 0)) else none

def ElfObject.nameTable (o : ElfObject) : Option Bytes :=
  if o.shstrndx = 0 then none
  else (o.sections[o.shstrndx - 1]?).bind fun s => if s.shType = shtStrtab then s.getdata else none

/-- `elf_strptr(e, shstrndx, sh_name)`; `none` is `NULL`. -/
def ElfObject.nameOf (o : ElfObject) (s : ElfSection) : Option Bytes :=
  o.nameTable.bind fun tab => stringAt tab s.shName

end Names

section Hashing

def canonicalFixedSections : List Bytes :=
  [".merlin.meta", ".merlin.maps", ".merlin.relocs", ".merlin.btf", ".merlin.btf_ext",
    ".merlin.license"].map cstr

def textPrefix : Bytes := cstr ".text.merlin."

/-- What `hash_section` feeds to the digest. -/
def ElfSection.contents (s : ElfSection) : Bytes := s.getdata.getD []

def ElfObject.findNamed (o : ElfObject) (name : Bytes) : Option ElfSection :=
  o.sections.find? fun s => o.nameOf s = some name

def ElfObject.isText (o : ElfObject) (s : ElfSection) : Bool :=
  match o.nameOf s with
  | some name => textPrefix.isPrefixOf name
  | none => false

/-- The pieces of the signed region, in the order they are hashed: the fixed sections, then every text
section.  A fixed section that is absent adds nothing. -/
def ElfObject.pieces (o : ElfObject) : List Bytes :=
  canonicalFixedSections.map (fun name => (o.findNamed name).elim [] ElfSection.contents) ++
    (o.sections.filter o.isText).map ElfSection.contents

def ElfObject.signedRegion (o : ElfObject) : Bytes := o.pieces.flatten

def ElfObject.signedTotal (o : ElfObject) : BitVec 64 := BitVec.ofNat 64 o.signedRegion.length

end Hashing

/-- What `merlin-sign` uses of OpenSSL: SHA-256 and Ed25519 over digests. -/
structure SignCrypto where
  Digest : Type
  sha256 : Bytes → Digest
  scheme : SignatureScheme Digest 64

def merlinSigHashSignedRegion (C : SignCrypto) (o : ElfObject) : C.Digest × BitVec 64 :=
  (C.sha256 o.signedRegion, o.signedTotal)

section Header

structure SigHeader where
  magic : BitVec 32
  sigSize : BitVec 32
  algo : BitVec 32
  keyId : BitVec 32
  signedBlobOff : BitVec 64
  signedBlobLen : BitVec 64
  sigBytesLen : BitVec 32
  reserved : BitVec 32
  deriving DecidableEq

def SigHeader.codec : Codec SigHeader :=
  (Codec.pair .u32 <| .pair .u32 <| .pair .u32 <| .pair .u32 <| .pair .u64 <| .pair .u64 <|
    .pair .u32 .u32).transport
    { toFun := fun ⟨a, b, c, d, e, f, g, h⟩ => ⟨a, b, c, d, e, f, g, h⟩
      invFun := fun ⟨a, b, c, d, e, f, g, h⟩ => ⟨a, b, c, d, e, f, g, h⟩
      left_inv := fun _ => rfl
      right_inv := fun _ => rfl }

abbrev sigHeaderSize : ℕ := 40

theorem SigHeader.codec_width : SigHeader.codec.width = sigHeaderSize := rfl

def sigMagic : BitVec 32 := 0x47495356

def sigAlgoEd25519 : BitVec 32 := 1

abbrev sigEd25519Len : ℕ := 64

end Header

inductive Extracted where
  | failed
  | unsigned
  | found (header : SigHeader) (sigBytes : Bytes)

def sigName : Bytes := cstr ".merlin.sig"

/-- `merlin_sig_extract` with a buffer of `cap` bytes. -/
def merlinSigExtract (o : ElfObject) (cap : ℕ) : Extracted :=
  match o.findNamed sigName with
  | none => .unsigned
  | some s =>
    match s.getdata with
    | none => .failed
    | some d =>
      let h := SigHeader.codec.get d
      if d.length < sigHeaderSize then .failed
      else if h.magic ≠ sigMagic then .failed
      else if h.sigSize.toNat ≠ sigHeaderSize then .failed
      else if d.length ≠ sigHeaderSize + h.sigBytesLen.toNat then .failed
      else if cap < h.sigBytesLen.toNat then .failed
      else .found h (d.drop sigHeaderSize)

/-- The 64 bytes `merlin_sig_verify_ed25519` is given: the signature bytes that were extracted, and
what `stale`, the uninitialised buffer, held behind them. -/
def sigBuffer (sigBytes : Bytes) (stale : Vector Byte 64) : Bytes :=
  sigBytes ++ stale.toList.drop sigBytes.length

/-- `cmd_verify` with the public key of the key file, `none` when it cannot be loaded. -/
def cmdVerify (C : SignCrypto) (pub : Option C.scheme.Pub) (stale : Vector Byte 64) (o : ElfObject) : Bool :=
  match merlinSigExtract o sigEd25519Len with
  | .failed => false
  | .unsigned => false
  | .found h sigBytes =>
    let hashed := merlinSigHashSignedRegion C o
    if h.algo ≠ sigAlgoEd25519 then false
    else if hashed.2 ≠ h.signedBlobLen then false
    else
      match pub with
      | none => false
      | some pk => C.scheme.verify pk (sigBuffer sigBytes stale) hashed.1

/-! ## Embedding -/

/-- What is used of libelf's writer: `write` is the object that is read from the file `elf_update`
writes for an object, `none` when it fails, and `finish` what it makes of one section, given the class
and the machine. -/
structure Libelf where
  write : ElfObject → Option ElfObject
  finish : BitVec 8 → BitVec 16 → ElfSection → ElfSection

structure SecIn where
  name : Bytes
  buf : Bytes
  shType : BitVec 32
  shFlags : BitVec 64

def shstrtabName : Bytes := cstr ".shstrtab"

def ElfObject.readSection (o : ElfObject) (s : ElfSection) : Option SecIn :=
  let name := (o.nameOf s).getD []
  if name = shstrtabName then none
  else if name = sigName then none
  else if s.shType = shtNull then none
  else some ⟨name, s.contents, s.shType, s.shFlags⟩

def ElfObject.readAllSections (o : ElfObject) : List SecIn := o.sections.filterMap o.readSection

/-- A section as `merlin_sig_embed` hands it to libelf: what it does not set is zero. -/
def newSection (s : SecIn) (shName : ℕ) : ElfSection where
  shName := shName
  shType := s.shType
  shFlags := s.shFlags
  shSize := s.buf.length
  shLink := 0
  shInfo := 0
  shAddralign := 0
  shEntsize := 0
  data := if s.buf = [] then none else some s.buf

def appendName (sht name : Bytes) : Bytes := sht ++ name ++ [0]

/-- The offset `APPEND_NAME` returns, cast to 32 bits. -/
def nameOffset (sht : Bytes) : ℕ := sht.length % 2 ^ 32

def writeSections (sht : Bytes) : List SecIn → Bytes × List ElfSection
  | [] => (sht, [])
  | s :: ss =>
    let (sht', rest) := writeSections (appendName sht s.name) ss
    (sht', newSection s (nameOffset sht) :: rest)

def assembleObject (eClass : BitVec 8) (eMachine : BitVec 16) (secs : List SecIn) : ElfObject :=
  let (sht, outs) := writeSections [0] secs
  let table := appendName sht shstrtabName
  { eClass := eClass
    eType := etRel
    eMachine := eMachine
    eFlags := 0
    shstrndx := (outs.length + 1) % 2 ^ 16
    sections := outs ++ [newSection ⟨shstrtabName, table, shtStrtab, 0⟩ (nameOffset sht)] }

def sigSection (header : SigHeader) (sigBytes : Bytes) : SecIn :=
  ⟨sigName, SigHeader.codec.put header ++ sigBytes, shtProgbits, 0⟩

def merlinSigEmbed (L : Libelf) (o : ElfObject) (header : SigHeader) (sigBytes : Bytes) : Option ElfObject :=
  L.write (assembleObject o.eClass o.eMachine (o.readAllSections ++ [sigSection header sigBytes]))

def signHeader (keyId : BitVec 32) (total : BitVec 64) : SigHeader where
  magic := sigMagic
  sigSize := BitVec.ofNat 32 sigHeaderSize
  algo := sigAlgoEd25519
  keyId := keyId
  signedBlobOff := 0
  signedBlobLen := total
  sigBytesLen := BitVec.ofNat 32 sigEd25519Len
  reserved := 0

/-- `cmd_sign` with the private key of the key file, `none` when it cannot be loaded; the output when it
succeeds. -/
def cmdSign (C : SignCrypto) (L : Libelf) (priv : Option C.scheme.Priv) (keyId : BitVec 32)
    (o : ElfObject) : Option ElfObject :=
  let hashed := merlinSigHashSignedRegion C o
  match priv with
  | none => none
  | some sk => merlinSigEmbed L o (signHeader keyId hashed.2) (C.scheme.sign sk hashed.1).toList

end MerlinV
