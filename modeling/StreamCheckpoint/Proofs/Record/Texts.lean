import Mathlib.Data.List.Basic
import Mathlib.Order.Bounds.Defs
import StreamCheckpoint.Proofs.Record.Codecs

/-! Which octets are a text, and where reading stops if they are none.  A form of one to four octets
has bits for a number (`form`), and texts consist of the shortest forms of the numbers of characters
(`WellFormed`).  Octets begin with a form or reading refuses the first character (`form_or_error`),
and it refuses the forms that are too long, that write a surrogate or too large a number, or that
break off (`readFrom_form_error`, `readFrom_truncated`).  So octets are a text followed by what is
refused (`exists_encode_append`), and the index at which reading stops is the length of the longest
text with which they begin (`index_isGreatest`). -/

namespace StreamCheckpoint.Utf8

/-- The numbers below this one are those for which `length` octets have bits.  No form has more than
four octets. -/
def room : (length : Nat) → Nat
  | 1 => 0x80
  | 2 => 0x800
  | 3 => 0x10000
  | 4 => 0x200000
  | _ => 0

/-- The form of `length` octets that writes `v`, six bits in each octet but the first, whether or
not UTF-8 admits it. -/
def form : (length v : Nat) → Bytes
  | 1, v => [UInt8.ofNat v]
  | 2, v => [UInt8.ofNat (v / 64 + 192), continuing v]
  | 3, v => [UInt8.ofNat (v / 4096 + 224), continuing (v / 64), continuing v]
  | 4, v =>
    [UInt8.ofNat (v / 262144 + 240), continuing (v / 4096), continuing (v / 64), continuing v]
  | _, _ => []

/-- A slash in two octets, which are one too many, and the first surrogate. -/
example : form 2 0x2F = [0xC0, 0xAF] ∧ form 3 0xD800 = [0xED, 0xA0, 0x80] := by decide

/-- Octets that write characters: for the number of each, which is no surrogate and at most
`0x10FFFF`, the shortest form that it has. -/
inductive WellFormed : Bytes → Prop
  | nil : WellFormed []
  | cons {length v : Nat} {bs : Bytes} (fits : v < room length) (shortest : room (length - 1) ≤ v)
      (scalar : v.isValidChar) (rest : WellFormed bs) : WellFormed (form length v ++ bs)

theorem length_of_lt_room {length v : Nat} (h : v < room length) :
    length = 1 ∨ length = 2 ∨ length = 3 ∨ length = 4 := by
  unfold room at h
  split at h <;> omega

theorem continuing_congr {x y : Nat} (h : x % 64 = y % 64) : continuing x = continuing y := by
  rw [continuing, continuing, h]

/-- The shortest form of the number of a character is its UTF-8 form. -/
theorem form_eq_encodeChar {length v : Nat} (fits : v < room length)
    (shortest : room (length - 1) ≤ v) (scalar : v.isValidChar) :
    form length v = String.utf8EncodeChar (Char.ofNat v) := by
  have number : (Char.ofNat v).val.toNat = v := by
    rw [Char.ofNat, dif_pos scalar]
    rfl
  unfold String.utf8EncodeChar
  simp only [number]
  obtain rfl | rfl | rfl | rfl := length_of_lt_room fits
  all_goals
    simp only [room, Nat.reduceSub] at fits shortest
  · rw [if_pos (by omega), form]
  · rw [if_neg (by omega), if_pos (by omega), form, Nat.mod_eq_of_lt (by omega)]
    rfl
  · have first : v / 4096 % 16 = v / 4096 := Nat.mod_eq_of_lt (by omega)
    rw [if_neg (by omega), if_neg (by omega), if_pos (by omega), form, first]
    rfl
  · have first : v / 262144 % 8 = v / 262144 := Nat.mod_eq_of_lt (by omega)
    rw [if_neg (by omega), if_neg (by omega), if_neg (by omega), form, first]
    rfl

theorem exists_form_encodeChar (c : Char) : ∃ length, c.val.toNat < room length ∧
    room (length - 1) ≤ c.val.toNat ∧ form length c.val.toNat = String.utf8EncodeChar c := by
  have scalar : c.val.toNat.isValidChar := c.valid
  suffices h : ∃ length, c.val.toNat < room length ∧ room (length - 1) ≤ c.val.toNat by
    obtain ⟨length, fits, shortest⟩ := h
    refine ⟨length, fits, shortest, ?_⟩
    rw [form_eq_encodeChar fits shortest scalar]
    exact congrArg _ (Char.ofNat_toNat c)
  generalize c.val.toNat = v at scalar
  by_cases h1 : v < 0x80
  · exact ⟨1, h1, Nat.zero_le _⟩
  by_cases h2 : v < 0x800
  · exact ⟨2, h2, Nat.not_lt.1 h1⟩
  by_cases h3 : v < 0x10000
  · exact ⟨3, h3, Nat.not_lt.1 h2⟩
  · refine ⟨4, ?_, Nat.not_lt.1 h3⟩
    simp only [room]
    omega

/-- Octets are a text if they are the UTF-8 form of some characters. -/
theorem wellFormed_iff {bs : Bytes} : WellFormed bs ↔ ∃ cs, bs = encode cs := by
  constructor
  · intro h
    induction h with
    | nil => exact ⟨[], rfl⟩
    | @cons length v bs fits shortest scalar _ ih =>
      obtain ⟨cs, rfl⟩ := ih
      exact ⟨Char.ofNat v :: cs, by
        rw [form_eq_encodeChar fits shortest scalar, encode, encode, List.flatMap_cons]⟩
  · rintro ⟨cs, rfl⟩
    induction cs with
    | nil => exact .nil
    | cons c cs ih =>
      obtain ⟨length, fits, shortest, e⟩ := exists_form_encodeChar c
      rw [encode, List.flatMap_cons, ← e]
      exact .cons fits shortest c.valid ih

/-- The texts are the bytes that a string of the standard library can hold. -/
theorem wellFormed_iff_isValidUTF8 {bs : Bytes} :
    WellFormed bs ↔ bs.toByteArray.IsValidUTF8 := by
  rw [wellFormed_iff]
  constructor
  · rintro ⟨cs, rfl⟩
    exact ⟨cs, rfl⟩
  · rintro ⟨cs, e⟩
    exact ⟨cs, List.toByteArray_inj.1 e⟩

section Refusing

variable {index : Nat} {bs : Bytes}

/-- Reading stops before the end of the first character of `bs`, which begins at `index`; if some of
its octets were read before, it is `start`. -/
def RefusesFirst (index : Nat) (start : Option Begun) (bs : Bytes) : Prop :=
  ∃ length, readFrom index start bs = .error ⟨index, length⟩

theorem refuses_of_begin? {b : UInt8} (h : begin? b = none) (bs : Bytes) :
    RefusesFirst index none (b :: bs) :=
  ⟨some 1, by simp [readFrom, h]⟩

theorem refuses_of_contains {value length : Nat} {r : OctetRange} {owed : List OctetRange}
    {b : UInt8} (h : ¬r.contains b = true) (bs : Bytes) :
    RefusesFirst index (some ⟨value, length, r :: owed⟩) (b :: bs) :=
  ⟨some length, by simp [readFrom, h]⟩

theorem begin?_of_continuing : ∀ n < 64, begin? (UInt8.ofNat (n + 128)) = none := by decide

/-- Every form of two octets that would begin so is too long. -/
theorem begin?_of_overlong : ∀ n < 2, begin? (UInt8.ofNat (n + 192)) = none := by decide

/-- Every form of four octets that would begin so writes too large a number. -/
theorem begin?_of_beyond : ∀ n < 16, 5 ≤ n → begin? (UInt8.ofNat (n + 240)) = none := by decide

theorem second_contains_iff {last n x : Nat} {low high : OctetRange} (distinct : last ≠ 0) :
    (second last low high n).contains (continuing x) = true ↔
      (n = 0 → low.contains (continuing x) = true) ∧
        (n = last → high.contains (continuing x) = true) := by
  refine ⟨fun h => ⟨?_, ?_⟩, fun h => second_contains h.1 h.2⟩
  · rintro rfl
    exact h
  · rintro rfl
    rwa [second, if_neg distinct, if_pos rfl] at h

/-- Forms that are longer than necessary, that write a surrogate or that write a number above
`0x10FFFF` are refused, by their first or second octet. -/
theorem readFrom_form_error {length v : Nat} (fits : v < room length)
    (bad : v < room (length - 1) ∨ ¬v.isValidChar) (bs : Bytes) :
    RefusesFirst index none (form length v ++ bs) := by
  obtain rfl | rfl | rfl | rfl := length_of_lt_room fits
  all_goals simp only [room, Nat.reduceSub, Nat.isValidChar] at fits bad
  · omega
  · exact refuses_of_begin? (begin?_of_overlong (v / 64) (by omega)) _
  · rw [form, List.cons_append, RefusesFirst,
      readFrom_first (begin?_of_three (v / 4096) (by omega)) (by simp)]
    refine refuses_of_contains ?_ _
    rw [secondOfThree, second_contains_iff (by decide), contains_continuing, contains_continuing]
    simp only [UInt8.reduceToNat]
    omega
  · by_cases first : v / 262144 < 5
    · rw [form, List.cons_append, RefusesFirst,
        readFrom_first (begin?_of_four (v / 262144) first) (by simp)]
      refine refuses_of_contains ?_ _
      rw [secondOfFour, second_contains_iff (by decide), contains_continuing, contains_continuing]
      simp only [UInt8.reduceToNat]
      omega
    · exact refuses_of_begin? (begin?_of_beyond (v / 262144) (by omega) (by omega)) _

/-- Only octets that continue a character are in the range. -/
def OctetRange.Continues (r : OctetRange) : Prop := 0x80 ≤ r.first ∧ r.last ≤ 0xBF

instance (r : OctetRange) : Decidable r.Continues := inferInstanceAs (Decidable (_ ∧ _))

theorem OctetRange.Continues.exists_continuing {r : OctetRange} (h : r.Continues) {b : UInt8}
    (hb : r.contains b = true) : ∃ x < 64, b = continuing x := by
  obtain ⟨low, high⟩ := h
  simp only [OctetRange.contains, Bool.and_eq_true, decide_eq_true_eq, UInt8.le_iff_toNat_le,
    UInt8.reduceToNat] at hb low high
  refine ⟨b.toNat - 128, by omega, UInt8.toNat_inj.1 ?_⟩
  rw [toNat_continuing]
  omega

/-- The octets with which a character may begin, with what is known of it then. -/
inductive First : UInt8 → Begun → Prop
  | one {n : Nat} (h : n < 128) : First (UInt8.ofNat n) ⟨n, 1, []⟩
  | two {n : Nat} (h : n < 32) : First (UInt8.ofNat (n + 192)) ⟨n, 1, [continuation]⟩
  | three {n : Nat} (h : n < 16) :
      First (UInt8.ofNat (n + 224)) ⟨n, 1, [secondOfThree n, continuation]⟩
  | four {n : Nat} (h : n < 5) :
      First (UInt8.ofNat (n + 240)) ⟨n, 1, [secondOfFour n, continuation, continuation]⟩

theorem first_of_begin? {b : UInt8} {c : Begun} (h : begin? b = some c) : First b c := by
  have octet : b = UInt8.ofNat b.toNat := UInt8.ofNat_toNat.symm
  have bound : b.toNat < 256 := b.toNat_lt
  generalize b.toNat = m at octet bound
  subst octet
  -- the octets go by their leading bits
  by_cases one : m < 128
  · obtain rfl := Option.some.inj (h.symm.trans (begin?_of_one m one))
    exact .one one
  by_cases continuing : m < 192
  · obtain ⟨n, rfl⟩ := Nat.exists_eq_add_of_le' (Nat.not_lt.1 one)
    cases h.symm.trans (begin?_of_continuing n (by omega))
  by_cases two : m < 224
  · obtain ⟨n, rfl⟩ := Nat.exists_eq_add_of_le' (Nat.not_lt.1 continuing)
    by_cases overlong : n < 2
    · cases h.symm.trans (begin?_of_overlong n overlong)
    · obtain rfl := Option.some.inj (h.symm.trans (begin?_of_two n (by omega) (by omega)))
      exact .two (by omega)
  by_cases three : m < 240
  · obtain ⟨n, rfl⟩ := Nat.exists_eq_add_of_le' (Nat.not_lt.1 two)
    obtain rfl := Option.some.inj (h.symm.trans (begin?_of_three n (by omega)))
    exact .three (by omega)
  · obtain ⟨n, rfl⟩ := Nat.exists_eq_add_of_le' (Nat.not_lt.1 three)
    by_cases four : n < 5
    · obtain rfl := Option.some.inj (h.symm.trans (begin?_of_four n four))
      exact .four four
    · cases h.symm.trans (begin?_of_beyond n (by omega) (Nat.not_lt.1 four))

theorem secondOfThree_continues : ∀ n < 16, (secondOfThree n).Continues := by decide

theorem secondOfFour_continues : ∀ n < 5, (secondOfFour n).Continues := by decide

theorem continuation_continues : continuation.Continues := by decide

theorem First.continues {b : UInt8} {c : Begun} (h : First b c) : ∀ r ∈ c.owed, r.Continues := by
  cases h with
  | one h => simp
  | two h => simp [continuation_continues]
  | three h => simp [continuation_continues, secondOfThree_continues _ h]
  | four h => simp [continuation_continues, secondOfFour_continues _ h]

/-- A first octet and as many others as it asks for are a form. -/
theorem First.exists_form {b : UInt8} {c : Begun} (h : First b c) {xs : List Nat}
    (enough : xs.length = c.owed.length) (small : ∀ x ∈ xs, x < 64) :
    ∃ length v, v < room length ∧ form length v = b :: xs.map continuing := by
  cases h with
  | @one n h =>
    obtain rfl := List.length_eq_zero_iff.1 enough
    exact ⟨1, n, h, rfl⟩
  | @two n h =>
    obtain ⟨x, rfl⟩ := List.length_eq_one_iff.1 enough
    have hx : x < 64 := by simpa using small
    obtain ⟨v, hv⟩ : ∃ v, v = n * 64 + x := ⟨_, rfl⟩
    have first : v / 64 = n := by omega
    have last : v % 64 = x % 64 := by omega
    exact ⟨2, v, by simp only [room]; omega, by rw [form, first, continuing_congr last]; rfl⟩
  | @three n h =>
    obtain ⟨x, y, rfl⟩ := List.length_eq_two.1 enough
    have hxy : x < 64 ∧ y < 64 := by simpa using small
    obtain ⟨v, hv⟩ : ∃ v, v = n * 4096 + x * 64 + y := ⟨_, rfl⟩
    have first : v / 4096 = n := by omega
    have middle : v / 64 % 64 = x % 64 := by omega
    have last : v % 64 = y % 64 := by omega
    exact ⟨3, v, by simp only [room]; omega,
      by rw [form, first, continuing_congr middle, continuing_congr last]; rfl⟩
  | @four n h =>
    obtain ⟨x, y, z, rfl⟩ := List.length_eq_three.1 enough
    have hxyz : x < 64 ∧ y < 64 ∧ z < 64 := by simpa using small
    obtain ⟨v, hv⟩ : ∃ v, v = n * 262144 + x * 4096 + y * 64 + z := ⟨_, rfl⟩
    have first : v / 262144 = n := by omega
    have second : v / 4096 % 64 = x % 64 := by omega
    have third : v / 64 % 64 = y % 64 := by omega
    have last : v % 64 = z % 64 := by omega
    exact ⟨4, v, by simp only [room]; omega, by
      rw [form, first, continuing_congr second, continuing_congr third, continuing_congr last]
      rfl⟩

/-- What is owed of a character is in the octets that come next, or the character is refused. -/
theorem readFrom_owed {c : Begun} (begun : c.owed ≠ []) (h : ∀ r ∈ c.owed, r.Continues)
    (bs : Bytes) :
    (∃ (xs : List Nat) (rest : Bytes), xs.length = c.owed.length ∧ (∀ x ∈ xs, x < 64) ∧
      bs = xs.map continuing ++ rest) ∨ RefusesFirst index (some c) bs := by
  obtain ⟨value, length, owed⟩ := c
  induction owed generalizing value length bs with
  | nil => exact absurd rfl begun
  | cons r owed ih =>
    cases bs with
    | nil => exact .inr ⟨none, rfl⟩
    | cons b bs =>
      by_cases hb : r.contains b = true
      · obtain ⟨x, hx, rfl⟩ := (h r List.mem_cons_self).exists_continuing hb
        cases owed with
        | nil => exact .inl ⟨[x], bs, rfl, by simpa using hx, rfl⟩
        | cons r' owed =>
          have more := ih bs (value * 64 + x % 64) (length + 1) (List.cons_ne_nil _ _)
            fun r hr => h r (List.mem_cons_of_mem _ hr)
          refine more.imp ?_ ?_
          · rintro ⟨xs, rest, enough, small, rfl⟩
            exact ⟨x :: xs, rest, congrArg (· + 1) enough,
              List.forall_mem_cons.2 ⟨hx, small⟩, rfl⟩
          · rintro ⟨l, e⟩
            exact ⟨l, (readFrom_next hb).trans e⟩
      · exact .inr (refuses_of_contains hb bs)

/-- Octets begin with a form, or reading refuses the first character. -/
theorem form_or_error (index : Nat) (b : UInt8) (bs : Bytes) :
    (∃ length v rest, v < room length ∧ b :: bs = form length v ++ rest) ∨
      RefusesFirst index none (b :: bs) := by
  cases begun : begin? b with
  | none => exact .inr (refuses_of_begin? begun bs)
  | some c =>
    have first := first_of_begin? begun
    by_cases alone : c.owed = []
    · have enough : ([] : List Nat).length = c.owed.length := by rw [alone]; rfl
      obtain ⟨length, v, fits, e⟩ := first.exists_form enough (List.forall_mem_nil _)
      exact .inl ⟨length, v, bs, fits, by rw [e]; rfl⟩
    · rw [RefusesFirst, readFrom_first begun alone]
      refine (readFrom_owed alone first.continues bs).imp_left ?_
      rintro ⟨xs, rest, enough, small, rfl⟩
      obtain ⟨length, v, fits, e⟩ := first.exists_form enough small
      exact ⟨length, v, rest, fits, by rw [e]; rfl⟩

/-- Octets begin with a character, or reading refuses the first one. -/
theorem char_or_error (index : Nat) {bs : Bytes} (h : bs ≠ []) :
    (∃ c rest, bs = String.utf8EncodeChar c ++ rest) ∨ RefusesFirst index none bs := by
  obtain ⟨b, bs, rfl⟩ := List.exists_cons_of_ne_nil h
  obtain ⟨length, v, rest, fits, e⟩ | refused := form_or_error index b bs
  · by_cases good : room (length - 1) ≤ v ∧ v.isValidChar
    · exact .inl ⟨_, rest, by rw [e, form_eq_encodeChar fits good.1 good.2]⟩
    · rw [not_and_or, Nat.not_le] at good
      rw [e]
      exact .inr (readFrom_form_error fits good rest)
  · exact .inr refused

/-- The first octet of a form asks for as many others as the form has, if a character may begin with
it at all. -/
theorem begin?_form {length v : Nat} (fits : v < room length) :
    ∃ b tail, form length v = b :: tail ∧
      ∀ c, begin? b = some c → c.owed.length = tail.length := by
  obtain rfl | rfl | rfl | rfl := length_of_lt_room fits
  all_goals
    simp only [room] at fits
    refine ⟨_, _, rfl, fun c h => ?_⟩
  · obtain rfl := Option.some.inj (h.symm.trans (begin?_of_one v fits))
    rfl
  · by_cases overlong : v / 64 < 2
    · cases h.symm.trans (begin?_of_overlong (v / 64) overlong)
    · obtain rfl := Option.some.inj (h.symm.trans (begin?_of_two (v / 64) (by omega) (by omega)))
      rfl
  · obtain rfl := Option.some.inj (h.symm.trans (begin?_of_three (v / 4096) (by omega)))
    rfl
  · by_cases four : v / 262144 < 5
    · obtain rfl := Option.some.inj (h.symm.trans (begin?_of_four (v / 262144) four))
      rfl
    · cases h.symm.trans (begin?_of_beyond (v / 262144) (by omega) (Nat.not_lt.1 four))

/-- A form that breaks off, because the octets end or because the next one does not continue a
character, is refused. -/
theorem readFrom_truncated {length v : Nat} (fits : v < room length) {part after : Bytes}
    (begun : part ≠ []) (short : part <+: form length v) (broken : part ≠ form length v)
    (next : ∀ b ∈ after.head?, ¬continuation.contains b = true) :
    RefusesFirst index none (part ++ after) := by
  obtain ⟨b, tail, e, owed⟩ := begin?_form fits
  obtain ⟨b', part, rfl⟩ := List.exists_cons_of_ne_nil begun
  rw [e, List.cons_prefix_cons] at short
  obtain ⟨rfl, short⟩ := short
  have less : part.length < tail.length := by
    refine Nat.lt_of_le_of_ne short.length_le fun same => broken ?_
    rw [e, short.eq_of_length same]
  cases h : begin? b' with
  | none => exact refuses_of_begin? h _
  | some c =>
    have enough := owed c h
    have more : c.owed ≠ [] := List.ne_nil_of_length_pos (by omega)
    rw [List.cons_append, RefusesFirst, readFrom_first h more]
    refine (readFrom_owed more (first_of_begin? h).continues (part ++ after)).resolve_left ?_
    rintro ⟨xs, rest, full, -, split⟩
    -- an octet of `after` would be one of those that are owed
    obtain ⟨others, hxs, rfl⟩ | ⟨others, rfl, -⟩ := List.append_eq_append_iff.1 split
    · obtain ⟨o, others, rfl⟩ := List.exists_cons_of_ne_nil (l := others) (by
        rintro rfl
        have := congrArg List.length hxs
        simp only [List.length_map, List.append_nil] at this
        omega)
      have mem : o ∈ xs.map continuing := by simp [hxs]
      obtain ⟨x, -, rfl⟩ := List.mem_map.1 mem
      exact next (continuing x) (by simp) (continuation_contains x)
    · simp only [List.length_append, List.length_map] at less
      omega

end Refusing

section Longest

variable {index : Nat} {bs : Bytes} {flaw : Flaw}

/-- The message of a flaw ends with its index. -/
theorem Flaw.exists_message_eq (flaw : Flaw) :
    ∃ what, flaw.message = what ++ (" from index " ++ toString flaw.index) := by
  obtain ⟨index, _ | n⟩ := flaw
  · refine ⟨"incomplete utf-8 byte sequence", ?_⟩
    have split : "incomplete utf-8 byte sequence from index " =
        "incomplete utf-8 byte sequence" ++ " from index " := rfl
    show "incomplete utf-8 byte sequence from index " ++ toString index = _
    rw [split, String.append_assoc]
  · refine ⟨"invalid utf-8 sequence of " ++ toString n ++ " bytes", ?_⟩
    have split : " bytes from index " = " bytes" ++ " from index " := rfl
    show "invalid utf-8 sequence of " ++ toString n ++ " bytes from index " ++ toString index = _
    rw [split]
    simp only [String.append_assoc]

theorem map_eq_error_iff {ε α β : Type} {f : α → β} {x : Except ε α} {e : ε} :
    x.map f = .error e ↔ x = .error e := by
  cases x <;> simp [Except.map]

theorem readFrom_encode_append (index : Nat) (cs : List Char) (bs : Bytes) :
    readFrom index none (encode cs ++ bs) =
      (readFrom (index + (encode cs).length) none bs).map (cs ++ ·) := by
  induction cs generalizing index with
  | nil =>
    show readFrom index none bs = (readFrom index none bs).map id
    cases readFrom index none bs <;> rfl
  | cons c cs ih =>
    have e : encode (c :: cs) = String.utf8EncodeChar c ++ encode cs := List.flatMap_cons
    rw [e, List.append_assoc, readFrom_encodeChar, ih, List.length_append, Nat.add_assoc]
    cases readFrom (index + ((String.utf8EncodeChar c).length + (encode cs).length)) none bs <;> rfl

/-- Octets are a text followed by nothing or by what is refused. -/
theorem exists_encode_append (index : Nat) (bs : Bytes) : ∃ cs rest, bs = encode cs ++ rest ∧
    (rest = [] ∨ RefusesFirst (index + (encode cs).length) none rest) := by
  -- what comes after the first character is shorter
  induction hn : bs.length using Nat.strongRecOn generalizing index bs with
  | ind n ih =>
    subst hn
    by_cases empty : bs = []
    · exact ⟨[], [], empty, .inl rfl⟩
    obtain ⟨c, rest, rfl⟩ | refused := char_or_error index empty
    · have pos : 0 < (String.utf8EncodeChar c).length := by
        rw [String.length_utf8EncodeChar]
        exact c.utf8Size_pos
      obtain ⟨cs, rest, rfl, left⟩ := ih rest.length (by rw [List.length_append]; omega)
        (index + (String.utf8EncodeChar c).length) rest rfl
      refine ⟨c :: cs, rest, ?_, left.imp_right fun refused => ?_⟩
      · rw [encode, encode, List.flatMap_cons, List.append_assoc]
      · rwa [encode, List.flatMap_cons, List.length_append, ← Nat.add_assoc]
    · exact ⟨[], bs, rfl, .inr refused⟩

/-- The index of a flaw is not before the character that reading is at. -/
theorem index_le {start : Option Begun} (h : readFrom index start bs = .error flaw) :
    index ≤ flaw.index := by
  fun_induction readFrom index start bs with
  | case1 => cases h
  | case2 | case3 | case6 | case9 =>
    obtain rfl := Except.error.inj h
    exact Nat.le_refl _
  | case4 index b bs c hb done ih | case7 index c b bs r owed ho hb value done ih =>
    have later := ih (map_eq_error_iff.1 h)
    omega
  | case5 index b bs c hb more ih | case8 index c b bs r owed ho hb value more ih => exact ih h

/-- What is refused on its own is refused after a text, at the end of the text. -/
theorem decode_encode_append {cs : List Char} (h : RefusesFirst (encode cs).length none bs) :
    ∃ length, decode (encode cs ++ bs) = .error ⟨(encode cs).length, length⟩ := by
  obtain ⟨length, e⟩ := h
  refine ⟨length, ?_⟩
  rw [decode, readFrom_encode_append, Nat.zero_add, e]
  rfl

theorem decode_cases (bs : Bytes) : (∃ cs, decode bs = .ok cs ∧ bs = encode cs) ∨
    ∃ cs rest length, bs = encode cs ++ rest ∧
      decode bs = .error ⟨(encode cs).length, length⟩ := by
  obtain ⟨cs, rest, rfl, rfl | refused⟩ := exists_encode_append 0 bs
  · exact .inl ⟨cs, by rw [List.append_nil, decode_encode], List.append_nil _⟩
  · rw [Nat.zero_add] at refused
    obtain ⟨length, e⟩ := decode_encode_append refused
    exact .inr ⟨cs, rest, length, rfl, e⟩

theorem decode_eq_ok_iff {cs : List Char} : decode bs = .ok cs ↔ bs = encode cs := by
  refine ⟨fun h => ?_, fun h => h ▸ decode_encode cs⟩
  obtain ⟨cs', h', rfl⟩ | ⟨cs', _, _, _, h'⟩ := decode_cases bs
  · obtain rfl := Except.ok.inj (h.symm.trans h')
    rfl
  · cases h.symm.trans h'

/-- The index of a flaw is the length of the longest part, from the front, that is a text. -/
theorem index_isGreatest (h : decode bs = .error flaw) :
    IsGreatest {n | ∃ p, p <+: bs ∧ WellFormed p ∧ p.length = n} flaw.index := by
  obtain ⟨cs, h', -⟩ | ⟨cs, rest, length, rfl, h'⟩ := decode_cases bs
  · cases h.symm.trans h'
  obtain rfl := Except.error.inj (h.symm.trans h')
  refine ⟨⟨encode cs, List.prefix_append _ _, wellFormed_iff.2 ⟨cs, rfl⟩, rfl⟩, ?_⟩
  rintro _ ⟨p, ⟨rest', e⟩, text, rfl⟩
  obtain ⟨cs', rfl⟩ := wellFormed_iff.1 text
  rw [← e, decode, readFrom_encode_append, map_eq_error_iff, Nat.zero_add] at h'
  exact index_le h'

end Longest

end StreamCheckpoint.Utf8
