import StakeConsensus.Proofs.Encoding
import StakeConsensus.Proofs.Reexecution.Mismatch

/-!
# What is hashed, exactly

The byte string that is hashed for a value tells the value, and says nothing else about it. A
header is hashed without its signatures and its nonce, and whoever changes anything else changes
the byte string, even if the parts of varying length are cut in other places. For transactions,
receipts and states the byte string tells the whole value.
-/

namespace StakeConsensus

namespace Encoding

theorem bool_inj {b b' : Bool} (h : bool b = bool b') : b = b' := by
  cases b <;> cases b' <;> first | rfl | cases h

/-- The rules of the binary form: a number is written low byte first in its full width, and what
is of varying length comes after its length. -/
structure Layout : Prop where
  word : ∀ n : UInt64, (u64 n).length = 8 ∧ LittleEndian.decode (u64 n) = n.toNat
  half : ∀ n : UInt32, (u32 n).length = 4 ∧ LittleEndian.decode (u32 n) = n.toNat
  time : ∀ n : Int64, (i64 n).length = 8 ∧ LittleEndian.decode (i64 n) = n.toUInt64.toNat
  bytes : ∀ bs, bs.length < wordSize →
    LittleEndian.decode ((bytes bs).take 8) = bs.length ∧ (bytes bs).drop 8 = bs
  text : ∀ s : String, string s = Encoding.bytes s.toUTF8.toList
  list : ∀ {α : Type} (encode : α → Bytes) (xs : List α), xs.length < wordSize →
    LittleEndian.decode ((list encode xs).take 8) = xs.length ∧
      (list encode xs).drop 8 = xs.flatMap encode

theorem decode_length_append {n : Nat} (counted : n < wordSize) (rest : Bytes) :
    LittleEndian.decode ((length n ++ rest).take 8) = n ∧ (length n ++ rest).drop 8 = rest := by
  have hlength : (length n).length = 8 := LittleEndian.length_encode ..
  rw [List.take_left' hlength, List.drop_left' hlength, length, LittleEndian.decode_encode]
  exact ⟨Nat.mod_eq_of_lt counted, rfl⟩

theorem layout : Layout where
  word n := by
    refine ⟨length_u64 n, ?_⟩
    rw [u64, LittleEndian.decode_encode]
    exact Nat.mod_eq_of_lt n.toNat_lt
  half n := by
    refine ⟨length_u32 n, ?_⟩
    rw [u32, LittleEndian.decode_encode]
    exact Nat.mod_eq_of_lt n.toNat_lt
  time n := by
    refine ⟨length_i64 n, ?_⟩
    rw [i64, u64, LittleEndian.decode_encode]
    exact Nat.mod_eq_of_lt n.toUInt64.toNat_lt
  bytes bs counted := decode_length_append counted bs
  text _ := rfl
  list encode xs counted := decode_length_append counted (xs.flatMap encode)

end Encoding

theorem OrderedMap.ext {κ α : Type} [Ord κ] {m m' : OrderedMap κ α} (h : m.toList = m'.toList) :
    m = m' := by
  cases m
  cases m'
  cases h
  rfl

theorem Receipt.encode_inj {r r' : Receipt} (same : r.encode = r'.encode) : r = r' := by
  obtain ⟨code, success, gas⟩ := r
  obtain ⟨code', success', gas'⟩ := r'
  simp only [encode, List.append_assoc] at same
  obtain ⟨hcode, same⟩ := List.append_inj same (by simp [FixedBytes.length_toList])
  obtain ⟨hsuccess, hgas⟩ := List.append_inj same (by simp)
  obtain rfl := FixedBytes.ext hcode
  obtain rfl := Encoding.bool_inj hsuccess
  obtain rfl := Encoding.u64_inj hgas
  rfl

/-- Two headers agree in every field but the signatures and the nonce. -/
structure Header.SameContent (a b : Header) : Prop extends SameFrame a b where
  stateRoot : a.stateRoot = b.stateRoot
  txRoot : a.txRoot = b.txRoot
  receiptRoot : a.receiptRoot = b.receiptRoot
  bloom : a.bloom = b.bloom
  gasUsed : a.gasUsed = b.gasUsed

variable {h h' : Header}

/-- Only the signatures and the nonce are left to differ. -/
theorem Header.sameContent_iff : h.SameContent h' ↔ h.unsealed = h'.unsealed := by
  constructor
  · intro same
    simp only [unsealed, mk.injEq, and_true]
    exact ⟨same.height, same.parent, same.time, same.leader, same.stateRoot, same.txRoot,
      same.receiptRoot, same.bloom, same.gasLimit, same.gasUsed, same.version, same.vrf,
      same.topology, same.elect, same.turn⟩
  · intro same
    simp only [unsealed, mk.injEq, and_true] at same
    obtain ⟨height, parent, time, leader, stateRoot, txRoot, receiptRoot, bloom, gasLimit, gasUsed,
      version, vrf, topology, elect, turn⟩ := same
    exact ⟨⟨height, parent, time, leader, gasLimit, version, vrf, topology, elect, turn⟩, stateRoot,
      txRoot, receiptRoot, bloom, gasUsed⟩

theorem Header.encode_eq_iff (counted : h.Counted) (counted' : h'.Counted) :
    h.encode = h'.encode ↔ h.SameContent h' := by
  rw [sameContent_iff]
  refine ⟨encode_inj counted counted', fun same => ?_⟩
  have hencoded : h.unsealed.encode = h'.unsealed.encode := by rw [same]
  exact hencoded

theorem ChainState.encode_eq_iff {s s' : ChainState} (counted : s.Counted)
    (counted' : s'.Counted) : s.encode = s'.encode ↔
      s.accounts = s'.accounts ∧ s.uptime = s'.uptime ∧ s.matrix = s'.matrix := by
  constructor
  · intro same
    obtain ⟨haccounts, huptime, hmatrix⟩ := encode_inj counted counted' same
    exact ⟨OrderedMap.ext haccounts, OrderedMap.ext huptime, hmatrix⟩
  · rintro ⟨haccounts, huptime, hmatrix⟩
    rw [encode, encode, haccounts, huptime, hmatrix]

/-- Two values are hashed as the same byte string if and only if they agree, headers in all
fields but the signatures and the nonce, and states in accounts, uptime and the running digest.
The tables of headers and states have fewer entries than a word counts. -/
theorem encodings_exact : Encoding.Layout ∧
    (∀ h h' : Header, h.Counted → h'.Counted → (h.encode = h'.encode ↔ h.SameContent h')) ∧
    (∀ t t' : Transaction, t.encode = t'.encode ↔ t = t') ∧
    (∀ r r' : Receipt, r.encode = r'.encode ↔ r = r') ∧
    ∀ s s' : ChainState, s.Counted → s'.Counted → (s.encode = s'.encode ↔
      s.accounts = s'.accounts ∧ s.uptime = s'.uptime ∧ s.matrix = s'.matrix) := by
  refine ⟨Encoding.layout, fun h h' counted counted' => h.encode_eq_iff counted counted',
    fun t t' => ⟨Transaction.encode_inj, congrArg _⟩, fun r r' => ⟨Receipt.encode_inj, congrArg _⟩,
    fun s s' counted counted' => ChainState.encode_eq_iff counted counted'⟩

namespace Regrouped

/-- The first byte of the randomness reads like the end of the version, and the first of the
elected like the last of the observed. -/
def header : Header :=
  { Header.blank with
    version := "1.0", vrf := [48], topology := [.fill 20 1], elect := [.fill 20 2, .fill 20 3] }

def regrouped : Header :=
  { header with version := "1.00", vrf := [], topology := [.fill 20 1, .fill 20 2],
                elect := [.fill 20 3] }

def signed : Header := { header with signatures := [default], nonce := 7 }

theorem counted : header.Counted ∧ regrouped.Counted ∧ signed.Counted :=
  ⟨⟨by decide, by decide, by decide, by decide⟩, ⟨by decide, by decide, by decide, by decide⟩,
    ⟨by decide, by decide, by decide, by decide⟩⟩

/-- Cutting the parts of a header in other places changes what is hashed, and signing does not. -/
theorem encodings_exact_regrouped : header.Counted ∧ regrouped.Counted ∧ signed.Counted ∧
    header.encode ≠ regrouped.encode ∧ header.encode = signed.encode := by
  obtain ⟨hheader, hregrouped, hsigned⟩ := counted
  obtain ⟨-, hexact, -⟩ := encodings_exact
  refine ⟨hheader, hregrouped, hsigned, fun same => ?_, ?_⟩
  · have hversion := ((hexact _ _ hheader hregrouped).mp same).version
    exact absurd hversion (by decide)
  · exact (hexact _ _ hheader hsigned).mpr (Header.sameContent_iff.mpr rfl)

end Regrouped

end StakeConsensus
