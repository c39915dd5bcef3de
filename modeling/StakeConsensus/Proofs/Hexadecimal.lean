import StakeConsensus.Proofs.Encoding

/-!
# Which texts are addresses

An address is written in forty digits, and a text is read as one just if it is forty digits of
either case, after at most one mark. Reading goes over the UTF-8 bytes. A character that is no
digit has a byte that is none either, whether it takes one byte or several, so nothing is lost by
that. Of the ways to fail, an odd number of bytes comes first, then the first byte that is no
digit, and last a wrong number of digits.
-/

namespace StakeConsensus

namespace Hex

variable {b v : UInt8} {c : Char} {cs : List Char} {text bs : Bytes} {position : Nat}

/-- A hexadecimal digit of either case. -/
def IsDigit (c : Char) : Prop :=
  ('0' ≤ c ∧ c ≤ '9') ∨ ('a' ≤ c ∧ c ≤ 'f') ∨ ('A' ≤ c ∧ c ≤ 'F')

instance (c : Char) : Decidable (IsDigit c) := inferInstanceAs (Decidable (_ ∨ _ ∨ _))

/-- The UTF-8 bytes of a text. -/
def utf8 (cs : List Char) : Bytes := cs.flatMap String.utf8EncodeChar

/-- The character whose number a byte is. -/
def asChar (b : UInt8) : Char := Char.ofNat b.toNat

/-- The first byte of a text that is no digit, and its position. -/
def FirstBad (text : Bytes) (b : UInt8) (position : Nat) : Prop :=
  ∃ before after, text = before ++ b :: after ∧ before.length = position ∧
    (∀ d ∈ before, IsDigit (asChar d)) ∧ ¬ IsDigit (asChar b)

theorem utf8_ofList (cs : List Char) : (String.ofList cs).toUTF8.toList = utf8 cs := by
  rw [Encoding.toList_eq]
  show (String.ofList cs).toByteArray.data.toList = _
  rw [String.toByteArray_ofList, List.utf8Encode, List.toList_data_toByteArray, utf8]

/-! ### Digits -/

theorem toNat_ofNat_of_lt {n : Nat} (h : n < 256) : (Char.ofNat n).toNat = n := by
  rw [Char.ofNat, dif_pos (Or.inl (by omega))]
  rfl

theorem toNat_asChar (b : UInt8) : (asChar b).toNat = b.toNat := toNat_ofNat_of_lt b.toNat_lt

theorem isDigit_iff : IsDigit c ↔ (48 ≤ c.toNat ∧ c.toNat ≤ 57) ∨
    (97 ≤ c.toNat ∧ c.toNat ≤ 102) ∨ (65 ≤ c.toNat ∧ c.toNat ≤ 70) := by
  simp only [IsDigit, Char.le_def, UInt32.le_iff_toNat_le]
  rfl

theorem toNat_toLower (c : Char) :
    c.toLower.toNat = if 65 ≤ c.toNat ∧ c.toNat ≤ 90 then c.toNat + 32 else c.toNat := by
  have hupper : (c.val ≥ 'A'.val ∧ c.val ≤ 'Z'.val) ↔ 65 ≤ c.toNat ∧ c.toNat ≤ 90 := by
    simp only [ge_iff_le, UInt32.le_iff_toNat_le]
    rfl
  by_cases h : 65 ≤ c.toNat ∧ c.toNat ≤ 90
  · have hlower : c.toLower = _ := dif_pos (hupper.mpr h)
    rw [if_pos h, hlower]
    show (c.val + ('a'.val - 'A'.val)).toNat = c.val.toNat + 32
    have hsmall : c.val.toNat ≤ 90 := h.2
    rw [UInt32.toNat_add]
    show (c.val.toNat + 32) % 4294967296 = _
    omega
  · have hsame : c.toLower = c := dif_neg (mt hupper.mp h)
    rw [if_neg h, hsame]

theorem toNat_digit {n : Nat} (h : n < 16) :
    (digit n).toNat = if n < 10 then 48 + n else 87 + n := by
  rw [digit]
  split
  · exact toNat_ofNat_of_lt (by omega)
  · exact toNat_ofNat_of_lt (by omega)

theorem isDigit_digit {n : Nat} (h : n < 16) : IsDigit (digit n) := by
  rw [isDigit_iff, toNat_digit h]
  split <;> omega

/-- Digits are written in lower case. -/
theorem toLower_digit {n : Nat} (h : n < 16) : (digit n).toLower = digit n := by
  rw [← Char.toNat_inj, toNat_toLower, toNat_digit h]
  split <;> split <;> omega

theorem digit_inj {m n : Nat} (hm : m < 16) (hn : n < 16) (h : digit m = digit n) : m = n := by
  have hcode := congrArg Char.toNat h
  rw [toNat_digit hm, toNat_digit hn] at hcode
  split at hcode <;> split at hcode <;> omega

/-- The value of a digit, if its range starts `offset` above the values. -/
theorem digit_sub {offset : UInt8} (above : offset.toNat ≤ b.toNat)
    (small : b.toNat - offset.toNat < 16)
    (code : (if b.toNat - offset.toNat < 10 then 48 + (b.toNat - offset.toNat)
      else 87 + (b.toNat - offset.toNat)) = (asChar b).toLower.toNat) :
    (b - offset).toNat < 16 ∧ digit (b - offset).toNat = (asChar b).toLower := by
  have hsub : (b - offset).toNat = b.toNat - offset.toNat :=
    UInt8.toNat_sub_of_le b offset (UInt8.le_iff_toNat_le.mpr above)
  rw [hsub]
  refine ⟨small, ?_⟩
  rw [← Char.toNat_inj, toNat_digit small]
  exact code

/-- A byte has a value just if it is a digit, and the value is that of the digit. -/
theorem value?_cases (b : UInt8) : (value? b = none ∧ ¬ IsDigit (asChar b)) ∨
    ∃ v, value? b = some v ∧ IsDigit (asChar b) ∧ v.toNat < 16 ∧
      digit v.toNat = (asChar b).toLower := by
  have hlower := toNat_toLower (asChar b)
  have hrange : ∀ low high : UInt8, ((low ≤ b && b ≤ high) = true) ↔
      low.toNat ≤ b.toNat ∧ b.toNat ≤ high.toNat := by
    intro low high
    simp [UInt8.le_iff_toNat_le]
  rw [toNat_asChar] at hlower
  rw [isDigit_iff, toNat_asChar, value?]
  by_cases hdecimal : 48 ≤ b.toNat ∧ b.toNat ≤ 57
  · right
    refine ⟨b - 48, if_pos ((hrange 48 57).mpr hdecimal), .inl hdecimal, ?_⟩
    apply digit_sub
    · exact hdecimal.1
    · show b.toNat - 48 < 16
      omega
    · show (if b.toNat - 48 < 10 then 48 + (b.toNat - 48) else 87 + (b.toNat - 48)) = _
      rw [hlower]
      split <;> split <;> omega
  · rw [if_neg (mt (hrange 48 57).mp hdecimal)]
    by_cases hsmall : 97 ≤ b.toNat ∧ b.toNat ≤ 102
    · right
      refine ⟨b - 87, if_pos ((hrange 97 102).mpr hsmall), .inr (.inl hsmall), ?_⟩
      apply digit_sub
      · show 87 ≤ b.toNat
        omega
      · show b.toNat - 87 < 16
        omega
      · show (if b.toNat - 87 < 10 then 48 + (b.toNat - 87) else 87 + (b.toNat - 87)) = _
        rw [hlower]
        split <;> split <;> omega
    · rw [if_neg (mt (hrange 97 102).mp hsmall)]
      by_cases hcapital : 65 ≤ b.toNat ∧ b.toNat ≤ 70
      · right
        refine ⟨b - 55, if_pos ((hrange 65 70).mpr hcapital), .inr (.inr hcapital), ?_⟩
        apply digit_sub
        · show 55 ≤ b.toNat
          omega
        · show b.toNat - 55 < 16
          omega
        · show (if b.toNat - 55 < 10 then 48 + (b.toNat - 55) else 87 + (b.toNat - 55)) = _
          rw [hlower]
          split <;> split <;> omega
      · left
        refine ⟨if_neg (mt (hrange 65 70).mp hcapital), ?_⟩
        omega

theorem value?_eq_none_iff : value? b = none ↔ ¬ IsDigit (asChar b) := by
  obtain ⟨hnone, hno⟩ | ⟨v, hvalue, hdigit, -⟩ := value?_cases b
  · exact iff_of_true hnone hno
  · exact iff_of_false (by rw [hvalue]; exact nofun) (not_not_intro hdigit)

theorem value?_spec (h : value? b = some v) :
    IsDigit (asChar b) ∧ v.toNat < 16 ∧ digit v.toNat = (asChar b).toLower := by
  obtain ⟨hnone, -⟩ | ⟨w, hvalue, hw⟩ := value?_cases b
  · rw [hnone] at h
    cases h
  · obtain rfl := Option.some.inj (hvalue.symm.trans h)
    exact hw

/-- A byte is written with the digits of its halves. -/
theorem digits_pair {h l : UInt8} (hh : h.toNat < 16) (hl : l.toNat < 16) :
    digits (h * 16 + l) = [digit h.toNat, digit l.toNat] := by
  have hbyte : (h * 16 + l).toNat = h.toNat * 16 + l.toNat := by
    rw [UInt8.toNat_add, UInt8.toNat_mul]
    show (h.toNat * 16 % 256 + l.toNat) % 256 = _
    omega
  have hhigh : (h.toNat * 16 + l.toNat) / 16 = h.toNat := by omega
  have hlow : (h.toNat * 16 + l.toNat) % 16 = l.toNat := by omega
  rw [digits, hbyte, hhigh, hlow]

/-! ### Characters and their bytes -/

/-- A character of several bytes has one that is no digit. -/
theorem isDigit_utf8EncodeChar (c : Char) :
    (∀ b ∈ String.utf8EncodeChar c, IsDigit (asChar b)) ↔ IsDigit c := by
  have hfirst : ∀ n, n < 256 → 128 ≤ n → ¬ IsDigit (asChar (UInt8.ofNat n)) := by
    intro n hlt hwide
    have hnat : (UInt8.ofNat n).toNat = n := UInt8.toNat_ofNat_of_lt' hlt
    rw [isDigit_iff, toNat_asChar, hnat]
    omega
  have hcode : c.val.toNat = c.toNat := rfl
  rw [String.utf8EncodeChar]
  by_cases hascii : c.val.toNat ≤ 127
  · have hnat : (UInt8.ofNat c.val.toNat).toNat = c.toNat :=
      UInt8.toNat_ofNat_of_lt' (Nat.lt_of_le_of_lt hascii (by decide))
    have hsame : asChar (UInt8.ofNat c.val.toNat) = c := by
      rw [← Char.toNat_inj, toNat_asChar, hnat]
    simp only [if_pos hascii, List.forall_mem_singleton, hsame]
  · have hno : ¬ IsDigit c := by
      rw [isDigit_iff, ← hcode]
      omega
    simp only [if_neg hascii]
    refine iff_of_false (fun hall => ?_) hno
    split at hall
    · exact hfirst _ (by omega) (by omega) (hall _ (List.mem_cons_self ..))
    · split at hall
      · exact hfirst _ (by omega) (by omega) (hall _ (List.mem_cons_self ..))
      · exact hfirst _ (by omega) (by omega) (hall _ (List.mem_cons_self ..))

theorem isDigit_utf8 (cs : List Char) :
    (∀ b ∈ utf8 cs, IsDigit (asChar b)) ↔ ∀ c ∈ cs, IsDigit c := by
  simp only [utf8, List.mem_flatMap]
  constructor
  · intro hbytes c hc
    exact (isDigit_utf8EncodeChar c).mp fun b hb => hbytes b ⟨c, hc, hb⟩
  · rintro hchars b ⟨c, hc, hb⟩
    exact (isDigit_utf8EncodeChar c).mpr (hchars c hc) b hb

/-- Digits take one byte each. -/
theorem map_asChar_utf8 (digits : ∀ c ∈ cs, IsDigit c) : (utf8 cs).map asChar = cs := by
  induction cs with
  | nil => rfl
  | cons c cs ih =>
      have hascii : c.val.toNat ≤ 127 := by
        have hc := isDigit_iff.mp (digits c (List.mem_cons_self ..))
        show c.toNat ≤ 127
        omega
      have hnat : (UInt8.ofNat c.val.toNat).toNat = c.toNat :=
        UInt8.toNat_ofNat_of_lt' (Nat.lt_of_le_of_lt hascii (by decide))
      have hsame : asChar (UInt8.ofNat c.val.toNat) = c := by
        rw [← Char.toNat_inj, toNat_asChar, hnat]
      have hone : String.utf8EncodeChar c = [UInt8.ofNat c.val.toNat] := by
        rw [String.utf8EncodeChar]
        exact if_pos hascii
      rw [utf8, List.flatMap_cons, hone, List.map_append, List.map_singleton, hsame]
      exact congrArg (c :: ·) (ih fun d hd => digits d (List.mem_cons_of_mem _ hd))

theorem length_utf8 (digits : ∀ c ∈ cs, IsDigit c) : (utf8 cs).length = cs.length := by
  rw [← List.length_map asChar, map_asChar_utf8 digits]

/-! ### Reading bytes -/

theorem FirstBad.here (bad : ¬ IsDigit (asChar b)) (after : Bytes) : FirstBad (b :: after) b 0 :=
  ⟨[], after, rfl, rfl, List.forall_mem_nil _, bad⟩

theorem FirstBad.later {d : UInt8} (good : IsDigit (asChar d)) (h : FirstBad text b position) :
    FirstBad (d :: text) b (position + 1) := by
  obtain ⟨before, after, rfl, rfl, hbefore, hbad⟩ := h
  exact ⟨d :: before, after, rfl, rfl, List.forall_mem_cons.mpr ⟨good, hbefore⟩, hbad⟩

theorem FirstBad.cases_cons {d : UInt8} (h : FirstBad (d :: text) b position) :
    (d = b ∧ position = 0 ∧ ¬ IsDigit (asChar b)) ∨
      ∃ k, position = k + 1 ∧ IsDigit (asChar d) ∧ FirstBad text b k := by
  obtain ⟨before, after, htext, rfl, hbefore, hbad⟩ := h
  cases before with
  | nil => exact .inl ⟨(List.cons.inj htext).1, rfl, hbad⟩
  | cons e before =>
      obtain ⟨rfl, hrest⟩ := List.cons.inj htext
      obtain ⟨hd, hbefore⟩ := List.forall_mem_cons.mp hbefore
      exact .inr ⟨before.length, rfl, hd, before, after, hrest, rfl, hbefore, hbad⟩

/-- Either all bytes are digits, or one is the first that is none. -/
theorem digits_or_firstBad (text : Bytes) :
    (∀ b ∈ text, IsDigit (asChar b)) ∨ ∃ b position, FirstBad text b position := by
  induction text with
  | nil => exact .inl (List.forall_mem_nil _)
  | cons d text ih =>
      by_cases hd : IsDigit (asChar d)
      · obtain hall | ⟨b, position, hbad⟩ := ih
        · exact .inl (List.forall_mem_cons.mpr ⟨hd, hall⟩)
        · exact .inr ⟨b, position + 1, hbad.later hd⟩
      · exact .inr ⟨d, 0, .here hd text⟩

/-- Pairs of digits are the bytes that are written with them, but for the case. -/
theorem decodeFrom_digits (position : Nat) (even : text.length % 2 = 0)
    (all : ∀ b ∈ text, IsDigit (asChar b)) : ∃ bs, decodeFrom position text = .ok bs ∧
      text.length = 2 * bs.length ∧ bs.flatMap digits = text.map fun b => (asChar b).toLower := by
  fun_induction decodeFrom position text with
  | case1 position hi lo rest hhi =>
      exact absurd (all hi (List.mem_cons_self ..)) (value?_eq_none_iff.mp hhi)
  | case2 position hi lo rest h hlo hhi =>
      have hdigit := all lo (List.mem_cons_of_mem _ (List.mem_cons_self ..))
      exact absurd hdigit (value?_eq_none_iff.mp hlo)
  | case3 position hi lo rest h l hlo hhi ih =>
      obtain ⟨-, hsmall, hdigit⟩ := value?_spec hhi
      obtain ⟨-, lsmall, ldigit⟩ := value?_spec hlo
      simp only [List.length_cons] at even
      obtain ⟨bs, hbs, hlength, hdigits⟩ := ih (by omega)
        fun b hb => all b (List.mem_cons_of_mem _ (List.mem_cons_of_mem _ hb))
      refine ⟨(h * 16 + l) :: bs, by rw [hbs]; rfl, ?_, ?_⟩
      · simp only [List.length_cons]
        omega
      · rw [List.flatMap_cons, digits_pair hsmall lsmall, hdigits, hdigit, ldigit]
        rfl
  | case4 text position short =>
      match text with
      | [] => exact ⟨[], rfl, rfl, rfl⟩
      | [_] => cases even
      | hi :: lo :: rest => exact absurd rfl (short hi lo rest)

/-- The first byte that is no digit is reported with its position. -/
theorem decodeFrom_firstBad (position : Nat) {offset : Nat} (even : text.length % 2 = 0)
    (bad : FirstBad text b offset) :
    decodeFrom position text = .error (.badDigit b (position + offset)) := by
  fun_induction decodeFrom position text generalizing offset with
  | case1 position hi lo rest hhi =>
      obtain ⟨rfl, rfl, -⟩ | ⟨k, -, hdigit, -⟩ := bad.cases_cons
      · rfl
      · exact absurd hdigit (value?_eq_none_iff.mp hhi)
  | case2 position hi lo rest h hlo hhi =>
      obtain ⟨rfl, -, hbad⟩ | ⟨k, rfl, -, hrest⟩ := bad.cases_cons
      · exact absurd (value?_spec hhi).1 hbad
      obtain ⟨rfl, rfl, -⟩ | ⟨k, rfl, hdigit, -⟩ := hrest.cases_cons
      · rfl
      · exact absurd hdigit (value?_eq_none_iff.mp hlo)
  | case3 position hi lo rest h l hlo hhi ih =>
      obtain ⟨rfl, -, hbad⟩ | ⟨k, rfl, -, hrest⟩ := bad.cases_cons
      · exact absurd (value?_spec hhi).1 hbad
      obtain ⟨rfl, -, hbad⟩ | ⟨k, rfl, -, hrest⟩ := hrest.cases_cons
      · exact absurd (value?_spec hlo).1 hbad
      simp only [List.length_cons] at even
      have hposition : position + 2 + k = position + (k + 1 + 1) := by omega
      rw [ih (by omega) hrest, hposition]
      rfl
  | case4 text position short =>
      obtain ⟨before, after, rfl, -⟩ := bad
      match before, after with
      | [], [] => cases even
      | [], lo :: rest => exact absurd rfl (short b lo rest)
      | [hi], after => exact absurd rfl (short hi b after)
      | hi :: lo :: before, after => exact absurd rfl (short hi lo (before ++ b :: after))

/-! ### Reading texts -/

theorem decode_ofList (cs : List Char) : decode (String.ofList cs) = decodeBytes (utf8 cs) := by
  rw [decode, utf8_ofList]

theorem decodeFixed_odd (n : Nat) (odd : (utf8 cs).length % 2 = 1) :
    decodeFixed n (String.ofList cs) = .error .oddLength := by
  rw [decodeFixed, decode_ofList, decodeBytes, if_pos odd]

theorem decodeFixed_firstBad (n : Nat) (even : (utf8 cs).length % 2 = 0)
    (bad : FirstBad (utf8 cs) b position) :
    decodeFixed n (String.ofList cs) = .error (.badDigit b position) := by
  rw [decodeFixed, decode_ofList, decodeBytes, if_neg (by omega), decodeFrom_firstBad 0 even bad,
    Nat.zero_add]

/-- Digits are read as the bytes that are written with them, if they are as many as it takes. -/
theorem decodeFixed_digits (n : Nat) (even : cs.length % 2 = 0) (all : ∀ c ∈ cs, IsDigit c) :
    if cs.length = 2 * n then ∃ a : FixedBytes n, decodeFixed n (String.ofList cs) = .ok a ∧
        a.toHex = String.ofList (cs.map Char.toLower)
      else decodeFixed n (String.ofList cs) = .error .wrongLength := by
  have hchars := map_asChar_utf8 all
  have hlength := length_utf8 all
  obtain ⟨bs, hbs, hcount, hdigits⟩ :=
    decodeFrom_digits 0 (hlength ▸ even) ((isDigit_utf8 cs).mpr all)
  have hread : decode (String.ofList cs) = .ok bs := by
    rw [decode_ofList, decodeBytes, if_neg (by omega), hbs]
  have hwritten : encode bs = String.ofList (cs.map Char.toLower) := by
    have hlower : (utf8 cs).map (fun b => (asChar b).toLower) = cs.map Char.toLower := by
      calc (utf8 cs).map (fun b => (asChar b).toLower)
          = ((utf8 cs).map asChar).map Char.toLower := by rw [List.map_map]; rfl
        _ = cs.map Char.toLower := by rw [hchars]
    rw [encode, hdigits, hlower]
  rw [decodeFixed, hread]
  split
  · have hn : bs.length = n := by omega
    refine ⟨⟨bs, hn⟩, ?_, hwritten⟩
    simp only [FixedBytes.ofList?, dif_pos hn]
  · have hn : bs.length ≠ n := by omega
    simp only [FixedBytes.ofList?, dif_neg hn]

/-! ### Writing bytes -/

theorem digits_inj {d : UInt8} (h : digits b = digits d) : b = d := by
  have hb := b.toNat_lt
  have hd := d.toNat_lt
  obtain ⟨hhigh, hlow⟩ := List.cons.inj h
  have hdiv := digit_inj (by omega) (by omega) hhigh
  have hmod := digit_inj (by omega) (by omega) (List.cons.inj hlow).1
  rw [← UInt8.toNat_inj]
  omega

/-- Different bytes are written differently. -/
theorem flatMap_digits_inj {bs' : Bytes} (h : bs.flatMap digits = bs'.flatMap digits) :
    bs = bs' := by
  induction bs generalizing bs' with
  | nil =>
      cases bs' with
      | nil => rfl
      | cons d bs' => cases h
  | cons b bs ih =>
      cases bs' with
      | nil => cases h
      | cons d bs' =>
          rw [List.flatMap_cons, List.flatMap_cons] at h
          obtain ⟨hhead, htail⟩ := List.append_inj h rfl
          rw [digits_inj hhead, ih htail]

theorem mem_digits (h : c ∈ digits b) : IsDigit c ∧ c.toLower = c := by
  have hb := b.toNat_lt
  obtain ⟨n, hn, rfl⟩ : ∃ n, n < 16 ∧ c = digit n := by
    obtain rfl | h := List.mem_cons.mp h
    · exact ⟨b.toNat / 16, by omega, rfl⟩
    · exact ⟨b.toNat % 16, by omega, List.mem_singleton.mp h⟩
  exact ⟨isDigit_digit hn, toLower_digit hn⟩

end Hex

namespace FixedBytes

variable {n : Nat}

theorem toHex_inj {a a' : FixedBytes n} (h : a.toHex = a'.toHex) : a = a' :=
  ext (Hex.flatMap_digits_inj (String.ofList_injective h))

/-- Two digits for each byte. -/
theorem length_toHex (a : FixedBytes n) : a.toHex.toList.length = 2 * n := by
  have hdigits : ∀ bs : Bytes, (bs.flatMap Hex.digits).length = 2 * bs.length := by
    intro bs
    induction bs with
    | nil => rfl
    | cons b bs ih =>
        rw [List.flatMap_cons, List.length_append, ih, List.length_cons]
        show 2 + 2 * bs.length = _
        omega
  rw [toHex, Hex.encode, String.toList_ofList, hdigits, a.length_toList]

theorem mem_toHex {c : Char} {a : FixedBytes n} (h : c ∈ a.toHex.toList) :
    Hex.IsDigit c ∧ c.toLower = c := by
  rw [toHex, Hex.encode, String.toList_ofList] at h
  obtain ⟨b, -, hmem⟩ := List.mem_flatMap.mp h
  exact Hex.mem_digits hmem

/-- What is written is read again. -/
theorem decodeFixed_toHex (a : FixedBytes n) :
    Hex.decodeFixed n (String.ofList a.toHex.toList) = .ok a := by
  have hlength := a.length_toHex
  have hread := Hex.decodeFixed_digits n (by omega) fun c (hc : c ∈ a.toHex.toList) =>
    (mem_toHex hc).1
  rw [if_pos hlength] at hread
  obtain ⟨a', ha', hlower⟩ := hread
  have hsame : a.toHex.toList.map Char.toLower = a.toHex.toList :=
    (List.map_congr_left fun c hc => (mem_toHex hc).2).trans (List.map_id _)
  rw [hsame, String.ofList_toList] at hlower
  rw [ha', toHex_inj hlower]

end FixedBytes

namespace Address

/-- A text without the mark that it may begin with. -/
def unmarked (s : String) : List Char :=
  if ['0', 'x'] <+: s.toList then s.toList.drop 2 else s.toList

theorem ofHex_eq (s : String) : ofHex s = Hex.decodeFixed 20 (String.ofList (unmarked s)) := by
  rw [ofHex, unmarked]
  split
  case h_1 rest hs =>
    rw [hs, if_pos ⟨rest, rfl⟩]
    rfl
  case h_2 other =>
    have hno : ¬ ['0', 'x'] <+: s.toList := by
      rintro ⟨rest, hrest⟩
      exact other rest hrest.symm
    rw [if_neg hno]

/-- The second digit of an address is not the second character of the mark. -/
theorem unmarked_toHex (a : Address) : unmarked a.toHex = a.toHex.toList := by
  rw [unmarked, if_neg]
  rintro ⟨rest, hrest⟩
  have hx : 'x' ∈ a.toHex.toList := by
    rw [← hrest]
    exact List.mem_cons_of_mem _ (List.mem_cons_self ..)
  exact absurd (FixedBytes.mem_toHex hx).1 (by decide)

theorem unmarked_display (a : Address) : unmarked a.display = a.toHex.toList := by
  have htext : a.display.toList = ['0', 'x'] ++ a.toHex.toList := String.toList_append
  rw [unmarked, htext, if_pos (List.prefix_append ..)]
  rfl

theorem ofHex_digits {s : String} (length : (unmarked s).length = 40)
    (digits : ∀ c ∈ unmarked s, Hex.IsDigit c) :
    ∃ a : Address, ofHex s = .ok a ∧ a.toHex = String.ofList ((unmarked s).map Char.toLower) := by
  have hread := Hex.decodeFixed_digits 20 (by omega) digits
  rw [if_pos length, ← ofHex_eq] at hread
  exact hread

/-- What reading a text without its mark comes to: the first of four results that applies. -/
inductive Reading (cs : List Char) : Except HexError Address → Prop where
  | oddLength (odd : (Hex.utf8 cs).length % 2 = 1) : Reading cs (.error .oddLength)
  | badDigit {b : UInt8} {position : Nat} (even : (Hex.utf8 cs).length % 2 = 0)
      (first : Hex.FirstBad (Hex.utf8 cs) b position) :
      Reading cs (.error (.badDigit b position))
  | wrongLength (digits : ∀ c ∈ cs, Hex.IsDigit c) (even : cs.length % 2 = 0)
      (length : cs.length ≠ 40) : Reading cs (.error .wrongLength)
  | address {a : Address} (length : cs.length = 40) (digits : ∀ c ∈ cs, Hex.IsDigit c)
      (written : a.toHex = String.ofList (cs.map Char.toLower)) : Reading cs (.ok a)

theorem exists_reading (s : String) : ∃ r, Reading (unmarked s) r := by
  by_cases hodd : (Hex.utf8 (unmarked s)).length % 2 = 1
  · exact ⟨_, .oddLength hodd⟩
  have heven : (Hex.utf8 (unmarked s)).length % 2 = 0 := by omega
  obtain hall | ⟨b, position, hfirst⟩ := Hex.digits_or_firstBad (Hex.utf8 (unmarked s))
  · have hdigits := (Hex.isDigit_utf8 (unmarked s)).mp hall
    by_cases hlength : (unmarked s).length = 40
    · obtain ⟨a, -, hwritten⟩ := ofHex_digits hlength hdigits
      exact ⟨_, .address hlength hdigits hwritten⟩
    · exact ⟨_, .wrongLength hdigits (Hex.length_utf8 hdigits ▸ heven) hlength⟩
  · exact ⟨_, .badDigit heven hfirst⟩

theorem Reading.ofHex_eq {s : String} {r : Except HexError Address}
    (h : Reading (unmarked s) r) : ofHex s = r := by
  cases h with
  | oddLength odd => rw [Address.ofHex_eq, Hex.decodeFixed_odd 20 odd]
  | badDigit even first => rw [Address.ofHex_eq, Hex.decodeFixed_firstBad 20 even first]
  | wrongLength digits even length =>
      have hread := Hex.decodeFixed_digits 20 even digits
      rwa [if_neg length, ← Address.ofHex_eq] at hread
  | address length digits written =>
      obtain ⟨a, ha, hsame⟩ := ofHex_digits length digits
      rw [ha, FixedBytes.toHex_inj (hsame.trans written.symm)]

theorem ofHex_eq_iff (s : String) (r : Except HexError Address) :
    ofHex s = r ↔ Reading (unmarked s) r := by
  obtain ⟨r', hread⟩ := exists_reading s
  constructor
  · rintro rfl
    rwa [hread.ofHex_eq]
  · exact Reading.ofHex_eq

/-- An address is read from forty digits of either case after at most one mark, and is written
with these digits in lower case. Whatever else the text is, the failure tells the first thing
that is wrong with it. -/
theorem ofHex_exact (s : String) :
    ((∃ a, ofHex s = .ok a) ↔
      (unmarked s).length = 40 ∧ ∀ c ∈ unmarked s, Hex.IsDigit c) ∧
    (∀ a, ofHex s = .ok a → a.toHex = String.ofList ((unmarked s).map Char.toLower)) ∧
    (∀ a : Address, ofHex a.toHex = .ok a ∧ ofHex a.display = .ok a) ∧
    (ofHex s = .error .oddLength ↔ (Hex.utf8 (unmarked s)).length % 2 = 1) ∧
    (∀ b position, ofHex s = .error (.badDigit b position) ↔
      (Hex.utf8 (unmarked s)).length % 2 = 0 ∧
        Hex.FirstBad (Hex.utf8 (unmarked s)) b position) ∧
    (ofHex s = .error .wrongLength ↔ (∀ c ∈ unmarked s, Hex.IsDigit c) ∧
      (unmarked s).length % 2 = 0 ∧ (unmarked s).length ≠ 40) := by
  simp only [ofHex_eq_iff s]
  refine ⟨⟨?_, ?_⟩, ?_, ?_, ⟨?_, .oddLength⟩, fun b position => ⟨?_, ?_⟩, ⟨?_, ?_⟩⟩
  · rintro ⟨a, _ | _ | _ | ⟨hlength, hdigits, -⟩⟩
    exact ⟨hlength, hdigits⟩
  · rintro ⟨hlength, hdigits⟩
    obtain ⟨a, ha, hwritten⟩ := ofHex_digits hlength hdigits
    exact ⟨a, .address hlength hdigits hwritten⟩
  · rintro a (_ | _ | _ | ⟨-, -, hwritten⟩)
    exact hwritten
  · intro a
    rw [ofHex_eq, ofHex_eq, unmarked_toHex, unmarked_display]
    exact ⟨a.decodeFixed_toHex, a.decodeFixed_toHex⟩
  · rintro ⟨hodd⟩
    exact hodd
  · rintro (_ | ⟨heven, hfirst⟩)
    exact ⟨heven, hfirst⟩
  · rintro ⟨heven, hfirst⟩
    exact .badDigit heven hfirst
  · rintro (_ | _ | ⟨hdigits, heven, hlength⟩)
    exact ⟨hdigits, heven, hlength⟩
  · rintro ⟨hdigits, heven, hlength⟩
    exact .wrongLength hdigits heven hlength

/-- The mark is taken off once, and an accented letter is two bytes, neither of them a digit. -/
example : ofHex "0x0x" = .error (.badDigit 120 1) ∧ ofHex "0xxé" = .error .oddLength ∧
    ofHex "0xabé" = .error (.badDigit 195 2) :=
  ⟨by cbv, by cbv, by cbv⟩

end Address

end StakeConsensus
