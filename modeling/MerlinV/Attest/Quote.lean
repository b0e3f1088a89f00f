import MerlinV.Lib.Signature

/-! # Attestation quotes

`tools/merlin-attest/mak.c` over the layout of `merlin/attestation.h`: the attestation key is two PEM
files, the sequence counter is a third file, and a quote is a packed record with an Ed25519 signature
behind it.  OpenSSL is a parameter.  What the environment decides in a call (which file operation
fails or is cut short, the clock) is an argument of the call.
-/
namespace MerlinV
open Lib

def attestationMagic : BitVec 32 := 0x54534D4B

def attestationVersion : BitVec 32 := 1

def attestAlgoEd25519 : BitVec 32 := 1

abbrev ed25519SigLen : ℕ := 64

structure Attestation where
  magic : BitVec 32
  size : BitVec 32
  version : BitVec 32
  algo : BitVec 32
  progId : BitVec 32
  nsId : BitVec 32
  profile : BitVec 32
  pad0 : BitVec 32
  progTag : Vector Byte 32
  loadTimeNsBoot : BitVec 64
  attestationTimeNsBoot : BitVec 64
  quoteSeq : BitVec 64
  kernelBuildId : Vector Byte 20
  pad1 : Vector Byte 4
  attestingKeyId : BitVec 32
  attestingKeyAlgo : BitVec 32
  attestingKeyPubHash : Vector Byte 32
  hwChainPresent : BitVec 32
  hwChainKind : BitVec 32
  hwChainOffset : BitVec 32
  hwChainLen : BitVec 32
  hwChainDigest : Vector Byte 32
  nonce : Vector Byte 32
  sigOffset : BitVec 32
  sigLen : BitVec 32

namespace Attestation

def fields : Codec (BitVec 32 × BitVec 32 × BitVec 32 × BitVec 32 × BitVec 32 × BitVec 32 × BitVec 32 ×
    BitVec 32 × Vector Byte 32 × BitVec 64 × BitVec 64 × BitVec 64 × Vector Byte 20 × Vector Byte 4 ×
    BitVec 32 × BitVec 32 × Vector Byte 32 × BitVec 32 × BitVec 32 × BitVec 32 × BitVec 32 ×
    Vector Byte 32 × Vector Byte 32 × BitVec 32 × BitVec 32) :=
  .pair .u32 <| .pair .u32 <| .pair .u32 <| .pair .u32 <| .pair .u32 <| .pair .u32 <| .pair .u32 <|
  .pair .u32 <| .pair (.bytes 32) <| .pair .u64 <| .pair .u64 <| .pair .u64 <| .pair (.bytes 20) <|
  .pair (.bytes 4) <| .pair .u32 <| .pair .u32 <| .pair (.bytes 32) <| .pair .u32 <| .pair .u32 <|
  .pair .u32 <| .pair .u32 <| .pair (.bytes 32) <| .pair (.bytes 32) <| .pair .u32 .u32

def codec : Codec Attestation :=
  fields.transport
    { toFun := fun ⟨a, b, c, d, e, f, g, h, i, j, k, l, m, n, o, p, q, r, s, t, u, v, w, x, y⟩ =>
        ⟨a, b, c, d, e, f, g, h, i, j, k, l, m, n, o, p, q, r, s, t, u, v, w, x, y⟩
      invFun := fun ⟨a, b, c, d, e, f, g, h, i, j, k, l, m, n, o, p, q, r, s, t, u, v, w, x, y⟩ =>
        ⟨a, b, c, d, e, f, g, h, i, j, k, l, m, n, o, p, q, r, s, t, u, v, w, x, y⟩
      left_inv := fun _ => rfl
      right_inv := fun _ => rfl }

abbrev sizeof : ℕ := 240

theorem codec_width : codec.width = sizeof := rfl

end Attestation

/-! ## The key files -/

abbrev FileText := List Char

/-- How opening and reading a file ends: it fails, or the reader sees the first `n` characters. -/
inductive ReadOutcome where
  | fails
  | upTo (n : ℕ)

/-- How opening a file for writing and writing it ends: the open fails, or the file holds the first
`n` characters.  The writer need not notice that some are missing, since it does not check `fclose`. -/
inductive WriteOutcome where
  | fails
  | upTo (n : ℕ) (reported : Bool)

def readText (file : Option FileText) : ReadOutcome → Option FileText
  | .fails => none
  | .upTo n => file.map (List.take n)

/-- `mak.priv.pem`, `mak.pub.pem` and `mak.seq`; an absent file is `none`. -/
structure MakDir where
  priv : Option FileText
  pub : Option FileText
  seq : Option FileText
  deriving DecidableEq

/-- What `mak.c` uses of OpenSSL: Ed25519 over byte strings, SHA-256 of a public key, PEM. -/
structure MakCrypto where
  scheme : SignatureScheme Bytes ed25519SigLen
  pubHash : scheme.Pub → Vector Byte 32
  pemWritePrivateKey : scheme.Priv → FileText
  pemWritePubkey : scheme.Pub → FileText
  pemReadPrivateKey : FileText → Option scheme.Priv
  pemReadPubkey : FileText → Option scheme.Pub

section Mak
variable (C : MakCrypto)

/-- What the environment decides in a call of `merlin_mak_ensure`; `key` is the generated key, `none`
when the generation fails. -/
structure EnsureEnv where
  dirOk : Bool
  key : Option C.scheme.Priv
  privWrite : WriteOutcome
  pubWrite : WriteOutcome

/-- `merlin_mak_ensure`: the private key is written first, and both are written when either is
missing. -/
def merlinMakEnsure (d : MakDir) (env : EnsureEnv C) : MakDir × Bool :=
  if !env.dirOk then (d, false)
  else if d.priv.isSome && d.pub.isSome then (d, true)
  else
    match env.key with
    | none => (d, false)
    | some sk =>
      match env.privWrite with
      | .fails => (d, false)
      | .upTo n reported =>
        let d := { d with priv := some ((C.pemWritePrivateKey sk).take n) }
        if !reported then (d, false)
        else
          match env.pubWrite with
          | .fails => (d, false)
          | .upTo n reported =>
            ({ d with pub := some ((C.pemWritePubkey (C.scheme.pubOf sk)).take n) }, reported)

def merlinMakPubHash (d : MakDir) (r : ReadOutcome) (evpOk : Bool) : Option (Vector Byte 32) :=
  (readText d.pub r).bind fun t => (C.pemReadPubkey t).bind fun pk =>
    if evpOk then some (C.pubHash pk) else none

def signingKey (d : MakDir) (r : ReadOutcome) : Option C.scheme.Priv :=
  (readText d.priv r).bind C.pemReadPrivateKey

end Mak

section Counter

def isSpace (c : Char) : Bool := c ∈ [' ', '\t', '\n', '\x0b', '\x0c', '\r']

def decimalValue (ds : FileText) : ℕ := Nat.ofDigitChars 10 ds 0

/-- `fscanf` with the format `%lu`: white space, a sign, digits; a number that is too large gives
`ULONG_MAX`, and a minus sign negates. -/
def scanLu (t : FileText) : Option (BitVec 64) :=
  let t := t.dropWhile isSpace
  let negative := t.head? = some '-'
  let ds := (if negative || t.head? = some '+' then t.tail else t).takeWhile Char.isDigit
  if ds = [] then none
  else if 2 ^ 64 ≤ decimalValue ds then some (BitVec.allOnes 64)
  else if negative then some (-BitVec.ofNat 64 (decimalValue ds))
  else some (BitVec.ofNat 64 (decimalValue ds))

/-- `merlin_mak_seq_read`: any failure gives zero. -/
def merlinMakSeqRead (d : MakDir) (r : ReadOutcome) : BitVec 64 :=
  ((readText d.seq r).bind scanLu).getD 0

def printLu (v : BitVec 64) : FileText := Nat.toDigits 10 v.toNat ++ ['\n']

/-- `merlin_mak_seq_write`; its caller ignores whether it succeeds. -/
def merlinMakSeqWrite (d : MakDir) (v : BitVec 64) : WriteOutcome → MakDir
  | .fails => d
  | .upTo n _ => { d with seq := some ((printLu v).take n) }

end Counter

section Quotes
variable (C : MakCrypto)

structure SignEnv where
  bootNs : BitVec 64
  seqRead : ReadOutcome
  pubRead : ReadOutcome
  privRead : ReadOutcome
  seqWrite : WriteOutcome
  hashOk : Bool
  signOk : Bool

def quoteRecord (subject : Attestation) (nonce : Vector Byte 32) (bootNs seq : BitVec 64)
    (pubHash : Vector Byte 32) : Attestation :=
  { subject with
    magic := attestationMagic
    size := BitVec.ofNat 32 Attestation.sizeof
    version := attestationVersion
    algo := attestAlgoEd25519
    attestingKeyAlgo := attestAlgoEd25519
    attestationTimeNsBoot := bootNs
    quoteSeq := seq
    nonce := nonce
    sigOffset := BitVec.ofNat 32 Attestation.sizeof
    sigLen := BitVec.ofNat 32 ed25519SigLen
    attestingKeyPubHash := pubHash
    hwChainPresent := 0
    hwChainKind := 0
    hwChainOffset := 0
    hwChainLen := 0
    hwChainDigest := Vector.replicate 32 0 }

def signedBytes (sk : C.scheme.Priv) (q : Attestation) : Bytes :=
  Attestation.codec.put q ++ (C.scheme.sign sk (Attestation.codec.put q)).toList

/-- `merlin_mak_sign_quote`: the files afterwards and the quote, `none` for -1. -/
def merlinMakSignQuote (d : MakDir) (env : SignEnv) (subject : Attestation) (nonce : Vector Byte 32)
    (outCap : ℕ) : MakDir × Option Bytes :=
  if outCap < Attestation.sizeof + ed25519SigLen then (d, none)
  else
    let seq := merlinMakSeqRead d env.seqRead + 1
    match merlinMakPubHash C d env.pubRead env.hashOk with
    | none => (d, none)
    | some pubHash =>
      match signingKey C d env.privRead with
      | none => (d, none)
      | some sk =>
        if !env.signOk then (d, none)
        else
          (merlinMakSeqWrite d seq env.seqWrite,
            some (signedBytes C sk (quoteRecord subject nonce env.bootNs seq pubHash)))

def quoteShapeOk (quote : Bytes) (nonce : Vector Byte 32) : Bool :=
  let q := Attestation.codec.get quote
  Attestation.sizeof ≤ quote.length && q.magic = attestationMagic && q.version = attestationVersion &&
    q.algo = attestAlgoEd25519 && q.size.toNat = Attestation.sizeof &&
    q.sigOffset.toNat = Attestation.sizeof && q.sigLen.toNat = ed25519SigLen &&
    q.sigOffset.toNat + q.sigLen.toNat ≤ quote.length && q.nonce = nonce

def quoteSigOk (quote : Bytes) (pubPem : Option FileText) (evpOk : Bool) : Bool :=
  let q := Attestation.codec.get quote
  match pubPem.bind C.pemReadPubkey with
  | none => false
  | some pk =>
    evpOk && C.scheme.verify pk ((quote.drop q.sigOffset.toNat).take q.sigLen.toNat)
      (quote.take q.sigOffset.toNat)

/-- `merlin_mak_verify_quote`: whether the quote is accepted, and the last-seq cell afterwards.
`pubPem` is what reading the key file gives, `none` when it cannot be opened. -/
def merlinMakVerifyQuote (quote : Bytes) (pubPem : Option FileText) (evpOk : Bool) (nonce : Vector Byte 32)
    (lastSeq : Option (BitVec 64)) : Bool × Option (BitVec 64) :=
  let q := Attestation.codec.get quote
  if !quoteShapeOk quote nonce then (false, lastSeq)
  else if lastSeq.any fun last => q.quoteSeq ≤ last then (false, lastSeq)
  else if !quoteSigOk C quote pubPem evpOk then (false, lastSeq)
  else (true, lastSeq.map fun _ => q.quoteSeq)

end Quotes

end MerlinV
