import StakeConsensus.Chain.State

/-!
# What encodings determine

Parts of a fixed length can be split off an encoding from the left, and so can a list whose
elements have a fixed length, since its own length comes first. The head of a header is made
of parts of fixed length, up to the state root and beyond, and its tail of a text, lists and a
turn; a state is two lists and a digest. The length of a list is written modulo the word, so
the lists have to fit a word. A transfer is made of parts of fixed length only.
-/

namespace StakeConsensus

namespace Encoding

theorem u64_inj {a b : UInt64} (h : u64 a = u64 b) : a = b :=
  UInt64.toNat_inj.mp ((LittleEndian.encode_inj a.toNat_lt b.toNat_lt).mp h)

theorem u32_inj {a b : UInt32} (h : u32 a = u32 b) : a = b :=
  UInt32.toNat_inj.mp ((LittleEndian.encode_inj a.toNat_lt b.toNat_lt).mp h)

theorem i64_inj {a b : Int64} (h : i64 a = i64 b) : a = b := by
  have hword := u64_inj h
  cases a
  cases b
  simpa using hword

theorem length_inj {m n : Nat} (hm : m < wordSize) (hn : n < wordSize)
    (h : length m = length n) : m = n :=
  (LittleEndian.encode_inj hm hn).mp h

variable {α : Type} {encode : α → Bytes} {width : Nat}

/-- Elements of a fixed length can be told apart one after the other. -/
theorem flatMap_append_inj (fixed : ∀ a, (encode a).length = width)
    (injective : ∀ a b, encode a = encode b → a = b) {xs ys : List α} {rest rest' : Bytes}
    (length : xs.length = ys.length)
    (h : xs.flatMap encode ++ rest = ys.flatMap encode ++ rest') : xs = ys ∧ rest = rest' := by
  induction xs generalizing ys with
  | nil =>
      obtain rfl := List.eq_nil_of_length_eq_zero length.symm
      exact ⟨rfl, h⟩
  | cons x xs ih =>
      cases ys with
      | nil => simp at length
      | cons y ys =>
          rw [List.flatMap_cons, List.flatMap_cons, List.append_assoc, List.append_assoc] at h
          obtain ⟨hhead, htail⟩ := List.append_inj h (by rw [fixed, fixed])
          obtain ⟨rfl, hrest⟩ := ih (by simpa using length) htail
          exact ⟨by rw [injective x y hhead], hrest⟩

theorem list_append_inj (width : Nat) (fixed : ∀ a, (encode a).length = width)
    (injective : ∀ a b, encode a = encode b → a = b) {xs ys : List α} {rest rest' : Bytes}
    (counted : xs.length < wordSize) (counted' : ys.length < wordSize)
    (h : list encode xs ++ rest = list encode ys ++ rest') : xs = ys ∧ rest = rest' := by
  unfold list at h
  rw [List.append_assoc, List.append_assoc] at h
  obtain ⟨hlength, hrest⟩ := List.append_inj h (by simp [Encoding.length])
  exact flatMap_append_inj fixed injective (length_inj counted counted' hlength) hrest

theorem bytes_append_inj {bs bs' rest rest' : Bytes} (counted : bs.length < wordSize)
    (counted' : bs'.length < wordSize) (h : bytes bs ++ rest = bytes bs' ++ rest') :
    bs = bs' ∧ rest = rest' := by
  unfold bytes at h
  rw [List.append_assoc, List.append_assoc] at h
  obtain ⟨hlength, hrest⟩ := List.append_inj h (by simp [Encoding.length])
  exact List.append_inj hrest (length_inj counted counted' hlength)

theorem toList_loop (bs : ByteArray) (i : Nat) (read : Bytes) :
    ByteArray.toList.loop bs i read = read.reverse ++ bs.data.toList.drop i := by
  fun_induction ByteArray.toList.loop bs i read with
  | case1 i read within ih =>
      have hi : i < bs.data.toList.length := by simpa using within
      have hget : bs.get! i = bs.data.toList[i] := by
        change bs.data[i]! = _
        rw [getElem!_pos bs.data i within, Array.getElem_toList]
      rw [ih, List.drop_eq_getElem_cons hi, hget]
      simp
  | case2 i read past =>
      have hi : bs.data.toList.length ≤ i := by simpa using past
      simp [List.drop_eq_nil_of_le hi]

theorem toList_eq (bs : ByteArray) : bs.toList = bs.data.toList := by
  rw [ByteArray.toList, toList_loop]
  rfl

theorem string_append_inj {s s' : String} {rest rest' : Bytes}
    (counted : s.utf8ByteSize < wordSize) (counted' : s'.utf8ByteSize < wordSize)
    (h : string s ++ rest = string s' ++ rest') : s = s' ∧ rest = rest' := by
  have hlength : ∀ s : String, s.toUTF8.toList.length = s.utf8ByteSize := fun s => by
    rw [toList_eq]
    rfl
  obtain ⟨hbytes, hrest⟩ := bytes_append_inj (by rwa [hlength]) (by rwa [hlength]) h
  rw [toList_eq, toList_eq] at hbytes
  exact ⟨String.toByteArray_inj.mp (ByteArray.ext (Array.toList_inj.mp hbytes)), hrest⟩

end Encoding

theorem ConsensusTurn.encode_inj {t t' : ConsensusTurn} (same : t.encode = t'.encode) : t = t' := by
  obtain ⟨pre, used⟩ := t
  obtain ⟨pre', used'⟩ := t'
  obtain ⟨hpre, hused⟩ := List.append_inj same (by simp)
  obtain rfl := Encoding.u32_inj hpre
  obtain rfl := Encoding.u32_inj hused
  rfl

/-- Headers with one encoding agree in what comes before the lists. -/
theorem Header.encode_prefix {h h' : Header} (same : h.encode = h'.encode) :
    h.height = h'.height ∧ h.parent = h'.parent ∧ h.time = h'.time ∧ h.leader = h'.leader ∧
      h.stateRoot = h'.stateRoot := by
  simp only [encode, List.append_assoc] at same
  obtain ⟨hheight, same⟩ := List.append_inj same (by simp)
  obtain ⟨hparent, same⟩ := List.append_inj same (by simp [FixedBytes.length_toList])
  obtain ⟨htime, same⟩ := List.append_inj same (by simp)
  obtain ⟨hleader, same⟩ := List.append_inj same (by simp [FixedBytes.length_toList])
  obtain ⟨hstate, -⟩ := List.append_inj same (by simp [FixedBytes.length_toList])
  exact ⟨Encoding.u64_inj hheight, FixedBytes.ext hparent, Encoding.i64_inj htime,
    FixedBytes.ext hleader, FixedBytes.ext hstate⟩

/-- A header as it is hashed, before anybody has signed it. -/
def Header.unsealed (h : Header) : Header := { h with signatures := [], nonce := 0 }

/-- Signatures and nonce do not tell blocks apart. -/
theorem Header.agree_of_unsealed {h h' : Header} (same : h.unsealed = h'.unsealed) :
    h.hash = h'.hash ∧ h.parent = h'.parent ∧ h.height = h'.height := by
  have hhash : h.unsealed.hash = h'.unsealed.hash := by rw [same]
  have hparent : h.unsealed.parent = h'.unsealed.parent := by rw [same]
  have hheight : h.unsealed.height = h'.unsealed.height := by rw [same]
  exact ⟨hhash, hparent, hheight⟩

/-- What a header holds of varying length has fewer parts than a word counts. -/
structure Header.Counted (h : Header) : Prop where
  version : h.version.utf8ByteSize < wordSize
  vrf : h.vrf.length < wordSize
  topology : h.topology.length < wordSize
  elect : h.elect.length < wordSize

/-- Headers with one encoding differ in signatures and nonce at most. -/
theorem Header.encode_inj {h h' : Header} (counted : h.Counted) (counted' : h'.Counted)
    (same : h.encode = h'.encode) : h.unsealed = h'.unsealed := by
  obtain ⟨hheight, hparent, htime, hleader, hstate⟩ := encode_prefix same
  simp only [encode, List.append_assoc, hheight, hparent, htime, hleader, hstate,
    List.append_cancel_left_eq] at same
  obtain ⟨htx, same⟩ := List.append_inj same (by simp [FixedBytes.length_toList])
  obtain ⟨hreceipt, same⟩ := List.append_inj same (by simp [FixedBytes.length_toList])
  obtain ⟨hbloom, same⟩ := List.append_inj same (by simp [FixedBytes.length_toList])
  obtain ⟨hlimit, same⟩ := List.append_inj same (by simp)
  obtain ⟨hused, same⟩ := List.append_inj same (by simp)
  obtain ⟨hversion, same⟩ :=
    Encoding.string_append_inj counted.version counted'.version same
  obtain ⟨hvrf, same⟩ := Encoding.bytes_append_inj counted.vrf counted'.vrf same
  obtain ⟨htopology, same⟩ := Encoding.list_append_inj 20 FixedBytes.length_toList
    (fun _ _ => FixedBytes.ext) counted.topology counted'.topology same
  obtain ⟨helect, same⟩ := Encoding.list_append_inj 20 FixedBytes.length_toList
    (fun _ _ => FixedBytes.ext) counted.elect counted'.elect same
  have hturn := ConsensusTurn.encode_inj same
  simp only [unsealed, mk.injEq, and_true]
  exact ⟨hheight, hparent, htime, hleader, hstate, FixedBytes.ext htx, FixedBytes.ext hreceipt,
    FixedBytes.ext hbloom, Encoding.u64_inj hlimit, Encoding.u64_inj hused, hversion, hvrf,
    htopology, helect, hturn⟩

theorem Transaction.encode_inj {t t' : Transaction} (same : t.encode = t'.encode) : t = t' := by
  obtain ⟨sender, receiver, amount, nonce, gas⟩ := t
  obtain ⟨sender', receiver', amount', nonce', gas'⟩ := t'
  simp only [encode, List.append_assoc] at same
  obtain ⟨hsender, same⟩ := List.append_inj same (by simp [FixedBytes.length_toList])
  obtain ⟨hreceiver, same⟩ := List.append_inj same (by simp [FixedBytes.length_toList])
  obtain ⟨hamount, same⟩ := List.append_inj same (by simp)
  obtain ⟨hnonce, hgas⟩ := List.append_inj same (by simp)
  obtain rfl := FixedBytes.ext hsender
  obtain rfl := FixedBytes.ext hreceiver
  obtain rfl := Encoding.u64_inj hamount
  obtain rfl := Encoding.u64_inj hnonce
  obtain rfl := Encoding.u64_inj hgas
  rfl

namespace ChainState

theorem encodeAccount_inj (a b : Address × Account) (h : encodeAccount a = encodeAccount b) :
    a = b := by
  obtain ⟨address, balance, nonce⟩ := a
  obtain ⟨address', balance', nonce'⟩ := b
  simp only [encodeAccount, List.append_assoc] at h
  obtain ⟨haddress, h⟩ := List.append_inj h (by simp [FixedBytes.length_toList])
  obtain ⟨hbalance, hnonce⟩ := List.append_inj h (by simp)
  obtain rfl := FixedBytes.ext haddress
  obtain rfl := Encoding.u64_inj hbalance
  obtain rfl := Encoding.u64_inj hnonce
  rfl

theorem encodeUptime_inj (a b : Address × UInt64) (h : encodeUptime a = encodeUptime b) :
    a = b := by
  obtain ⟨address, count⟩ := a
  obtain ⟨address', count'⟩ := b
  simp only [encodeUptime] at h
  obtain ⟨haddress, hcount⟩ := List.append_inj h (by simp [FixedBytes.length_toList])
  obtain rfl := FixedBytes.ext haddress
  obtain rfl := Encoding.u64_inj hcount
  rfl

/-- The tables of a state have fewer entries than a word counts. -/
structure Counted (s : ChainState) : Prop where
  accounts : s.accounts.size < wordSize
  uptime : s.uptime.size < wordSize

/-- The root of a state is taken over all of it but the settings. -/
theorem encode_inj {s s' : ChainState} (counted : s.Counted) (counted' : s'.Counted)
    (same : s.encode = s'.encode) :
    s.accounts.toList = s'.accounts.toList ∧ s.uptime.toList = s'.uptime.toList ∧
      s.matrix = s'.matrix := by
  simp only [encode, List.append_assoc] at same
  obtain ⟨haccounts, same⟩ := Encoding.list_append_inj 36
    (by simp [encodeAccount, FixedBytes.length_toList]) encodeAccount_inj counted.accounts
    counted'.accounts same
  obtain ⟨huptime, hmatrix⟩ := Encoding.list_append_inj 28
    (by simp [encodeUptime, FixedBytes.length_toList]) encodeUptime_inj counted.uptime
    counted'.uptime same
  exact ⟨haccounts, huptime, FixedBytes.ext hmatrix⟩

end ChainState

end StakeConsensus
