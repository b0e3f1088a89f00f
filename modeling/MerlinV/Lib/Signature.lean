import MerlinV.Lib.Packed

/-! # Signature schemes

Keys, signing and verification as abstract functions, with the two properties protocols rely on.
-/
namespace MerlinV.Lib

/-- A scheme with signatures of `n` bytes over messages of type `Msg`. -/
structure SignatureScheme (Msg : Type) (n : ℕ) where
  Priv : Type
  Pub : Type
  pubOf : Priv → Pub
  sign : Priv → Msg → Vector Byte n
  verify : Pub → Bytes → Msg → Bool

namespace SignatureScheme

variable {Msg : Type} {n : ℕ}

def Correct (S : SignatureScheme Msg n) : Prop :=
  ∀ sk m, S.verify (S.pubOf sk) (S.sign sk m).toList m = true

/-- A signature accepted for a message is accepted for no other: only what was signed is accepted. -/
def Binding (S : SignatureScheme Msg n) : Prop :=
  ∀ pk sig m m', S.verify pk sig m = true → S.verify pk sig m' = true → m = m'

/-- The scheme in which a signature is a function of the key and the message that anyone can
recompute. -/
def transparent {Key : Type} (tag : Key → Msg → Vector Byte n) : SignatureScheme Msg n where
  Priv := Key
  Pub := Key
  pubOf k := k
  sign := tag
  verify k sig m := sig = (tag k m).toList

theorem transparent_correct {Key : Type} (tag : Key → Msg → Vector Byte n) : (transparent tag).Correct := by
  intro k m
  simp [transparent]

end SignatureScheme

end MerlinV.Lib
