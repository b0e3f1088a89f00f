import MerlinV.Lib.Packed
import MerlinV.Ns.Compose

/-! # Namespace files

`merlin_ns_load` and `merlin_ns_save` of `tools/merlin-ns/ns.c`: a config is the bytes of its structure, and a
file that a write has cut short is no config.
-/
namespace MerlinV

open Lib

def nsMagic : BitVec 32 := 0x4D4E5356

def nsVersion : BitVec 32 := 1

namespace NsConfig

abbrev sizeof : ℕ := 1160

def fields : Codec (BitVec 32 × BitVec 32 × BitVec 32 × BitVec 32 × Vector Byte 32 × BitVec 32 × BitVec 32 ×
    Vector (BitVec 64) nsAttachWords × Vector (BitVec 64) nsHelperWords × Vector (BitVec 64) nsKfuncWords ×
    BitVec 64 × BitVec 64 × BitVec 64 × BitVec 64 × BitVec 32 × Vector (BitVec 32) 7) :=
  .pair .u32 <| .pair .u32 <| .pair .u32 <| .pair .u32 <| .pair (.bytes 32) <| .pair .u32 <| .pair .u32 <|
  .pair (.array .u64 nsAttachWords) <| .pair (.array .u64 nsHelperWords) <| .pair (.array .u64 nsKfuncWords) <|
  .pair .u64 <| .pair .u64 <| .pair .u64 <| .pair .u64 <| .pair .u32 (.array .u32 7)

def codec : Codec NsConfig :=
  fields.transport
    { toFun := fun ⟨a, b, c, d, e, f, g, h, i, j, k, l, m, n, o, p⟩ => ⟨a, b, c, d, e, f, g, h, i, j, k, l, m, n, o, p⟩
      invFun := fun ⟨a, b, c, d, e, f, g, h, i, j, k, l, m, n, o, p⟩ => ⟨a, b, c, d, e, f, g, h, i, j, k, l, m, n, o, p⟩
      left_inv := fun _ => rfl
      right_inv := fun _ => rfl }

/-- The first three fields are those that `merlin_ns_load` asks for. -/
structure Headed (cfg : NsConfig) : Prop where
  magic : cfg.magic = nsMagic
  version : cfg.version = nsVersion
  size : cfg.size = BitVec.ofNat 32 sizeof

end NsConfig

/-- `merlin_ns_load` on what the file holds, if it can be opened; bytes that are not there are zero. -/
def merlinNsLoad (file : Option Bytes) : Option NsConfig :=
  match file with
  | none => none
  | some content =>
    let n := min content.length NsConfig.sizeof
    let tmp := NsConfig.codec.get (content.take n)
    if n < 12 then none
    else if tmp.magic ≠ nsMagic then none
    else if tmp.version ≠ nsVersion then none
    else if tmp.size ≠ BitVec.ofNat 32 NsConfig.sizeof then none
    else if n < tmp.size.toNat then none
    else some tmp

/-- How writing a file ends: it cannot be opened, or the first `n` bytes are written. -/
inductive NsWrite where
  | openFails
  | upTo (n : ℕ)
  deriving DecidableEq

/-- `merlin_ns_save`: whether it returns zero, and what the file holds, which was `old`. -/
def merlinNsSave (outcome : NsWrite) (old : Option Bytes) (cfg : NsConfig) : Bool × Option Bytes :=
  match outcome with
  | .openFails => (false, old)
  | .upTo n => (NsConfig.sizeof ≤ n, some ((NsConfig.codec.put cfg).take n))

section Files

variable {cfg c : NsConfig} {content : Bytes}

theorem length_put (cfg : NsConfig) : (NsConfig.codec.put cfg).length = NsConfig.sizeof :=
  NsConfig.codec.length_put cfg

theorem headed_of_load (h : merlinNsLoad (some content) = some cfg) :
    cfg.Headed ∧ NsConfig.sizeof ≤ content.length := by
  unfold merlinNsLoad at h
  dsimp only at h
  split_ifs at h with hshort hmagic hversion hsize hlen
  obtain rfl := Option.some.inj h
  rw [ne_eq, not_not] at hmagic hversion hsize
  refine ⟨⟨hmagic, hversion, hsize⟩, ?_⟩
  rw [hsize] at hlen
  have hnat : (BitVec.ofNat 32 NsConfig.sizeof).toNat = NsConfig.sizeof := rfl
  omega

/-- What `merlin_ns_load` sees of a config that was written in full. -/
theorem read_put (cfg : NsConfig) : min (NsConfig.codec.put cfg).length NsConfig.sizeof = NsConfig.sizeof ∧
    NsConfig.codec.get ((NsConfig.codec.put cfg).take NsConfig.sizeof) = cfg := by
  have hlen := length_put cfg
  have hget := NsConfig.codec.get_put cfg []
  rw [List.append_nil] at hget
  rw [hlen, min_self, List.take_of_length_le (le_of_eq hlen)]
  exact ⟨rfl, hget⟩

/-- A config that was written in full reads back exactly when it has the header. -/
theorem merlinNsLoad_put (cfg : NsConfig) :
    merlinNsLoad (some (NsConfig.codec.put cfg)) = some c ↔ cfg.Headed ∧ c = cfg := by
  obtain ⟨hmin, hget⟩ := read_put cfg
  constructor
  · intro h
    have hheaded := (headed_of_load h).1
    unfold merlinNsLoad at h
    dsimp only at h
    rw [hmin, hget] at h
    split_ifs at h
    obtain rfl := Option.some.inj h
    exact ⟨hheaded, rfl⟩
  · rintro ⟨⟨hmagic, hversion, hsize⟩, rfl⟩
    have hnat : ¬ NsConfig.sizeof < (BitVec.ofNat 32 NsConfig.sizeof).toNat := by decide
    unfold merlinNsLoad
    dsimp only
    rw [hmin, hget, if_neg (by decide), if_neg (not_not.mpr hmagic), if_neg (not_not.mpr hversion),
      if_neg (not_not.mpr hsize), hsize, if_neg hnat]

/-- Whatever loads after a save is what was there before it, or the config that was saved; a write that was cut
short leaves a file that does not load. -/
theorem load_after_save {outcome : NsWrite} {old : Option Bytes}
    (h : merlinNsLoad (merlinNsSave outcome old cfg).2 = some c) :
    merlinNsLoad old = some c ∨ (merlinNsSave outcome old cfg).1 = true ∧ c = cfg := by
  cases outcome with
  | openFails => exact .inl h
  | upTo n =>
    right
    have hlong := (headed_of_load h).2
    rw [List.length_take, length_put] at hlong
    have hn : NsConfig.sizeof ≤ n := le_trans hlong (min_le_left _ _)
    have htake : (NsConfig.codec.put cfg).take n = NsConfig.codec.put cfg :=
      List.take_of_length_le (by rw [length_put]; exact hn)
    change merlinNsLoad (some ((NsConfig.codec.put cfg).take n)) = some c at h
    rw [htake] at h
    exact ⟨decide_eq_true hn, ((merlinNsLoad_put cfg).mp h).2⟩

end Files

end MerlinV
