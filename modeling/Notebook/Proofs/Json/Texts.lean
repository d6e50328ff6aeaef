/-
  Notebook.Proofs.Json.Texts — two values with one text are one value.

  The text of a value can be told apart from whatever follows it, as long as what follows begins
  with a comma or closes an array or an object.  So the text of a value determines the value, part
  by part: the first character tells what kind of value it is, a number goes on as long as there are
  characters of numbers, and a string as long as no quote stands unescaped.

  Values are taken in standard form: readable, with the keys of every object in increasing order and
  doubles in their standard form.  Such a value is its own normal form.

  Main results:
    * `normal_of_isStandard` — a value in standard form is in normal form,
    * `stringChars_quote` — a quoted string is read back,
    * `text_append_injective` / `text_injective`.
-/
import Notebook.Json.Parser
import Notebook.Json.Printer
import Notebook.Proofs.Json.Doubles

namespace Notebook

/-- Lists that a predicate holds throughout end where it does not hold any more. -/
theorem append_injective_of_boundary {α : Type} {p : α → Bool} {a b s t : List α}
    (ha : ∀ x ∈ a, p x = true) (hb : ∀ x ∈ b, p x = true) (hs : ∀ x ∈ s.head?, p x = false)
    (ht : ∀ x ∈ t.head?, p x = false) (h : a ++ s = b ++ t) : a = b ∧ s = t := by
  have hstop : ∀ {s : List α}, (∀ x ∈ s.head?, p x = false) → s.takeWhile p = [] := by
    intro s hs
    cases s with
    | nil => rfl
    | cons x rest => rw [List.takeWhile_cons_of_neg (by simp [hs x rfl])]
  have htake := congrArg (List.takeWhile p) h
  rw [List.takeWhile_append_of_pos ha, List.takeWhile_append_of_pos hb, hstop hs, hstop ht,
    List.append_nil, List.append_nil] at htake
  exact ⟨htake, List.append_cancel_left (htake ▸ h)⟩

namespace Json

/-! ## §1. Standard form. -/

mutual

/-- Whether a document is a value as programs hold it. -/
def isStandard : Json → Bool
  | .array items => areStandard items
  | .object fields =>
    decide (fields.Pairwise fun a b => compare a.1 b.1 = .lt) && haveStandard fields
  | .double d => d.isStandard
  | .unreadable => false
  | .null => true
  | .bool _ => true
  | .int _ => true
  | .string _ => true

/-- Whether all items of an array are in standard form. -/
def areStandard : List Json → Bool
  | [] => true
  | item :: rest => isStandard item && areStandard rest

/-- Whether all fields of an object have values in standard form. -/
def haveStandard : List (String × Json) → Bool
  | [] => true
  | (_, value) :: rest => isStandard value && haveStandard rest

end

/-- A text or nothing is written in standard form. -/
theorem ofOption_isStandard (o : Option String) : (Json.ofOption .string o).isStandard = true := by
  cases o <;> rfl

theorem ofOption_injective {o o' : Option String}
    (h : Json.ofOption .string o = Json.ofOption .string o') : o = o' := by
  cases o <;> cases o' <;> simp_all [Json.ofOption]

theorem areStandard_iff {items : List Json} :
    areStandard items = true ↔ ∀ v ∈ items, v.isStandard = true := by
  induction items with
  | nil => simp [areStandard]
  | cons item rest ih => simp [areStandard, ih]

mutual

theorem isReadable_of_isStandard : (v : Json) → v.isStandard = true → v.isReadable = true
  | .null, _ => rfl
  | .bool _, _ => rfl
  | .int _, _ => rfl
  | .double _, _ => rfl
  | .string _, _ => rfl
  | .unreadable, h => h
  | .array items, h => areReadable_of_areStandard items h
  | .object fields, h => haveReadable_of_haveStandard fields (Bool.and_eq_true_iff.1 h).2

theorem areReadable_of_areStandard : (items : List Json) → areStandard items = true →
    areReadable items = true
  | [], _ => rfl
  | item :: rest, h => by
    obtain ⟨hitem, hrest⟩ := Bool.and_eq_true_iff.1 h
    exact Bool.and_eq_true_iff.2
      ⟨isReadable_of_isStandard item hitem, areReadable_of_areStandard rest hrest⟩

theorem haveReadable_of_haveStandard : (fields : List (String × Json)) →
    haveStandard fields = true → haveReadable fields = true
  | [], _ => rfl
  | (_, value) :: rest, h => by
    obtain ⟨hvalue, hrest⟩ := Bool.and_eq_true_iff.1 h
    exact Bool.and_eq_true_iff.2
      ⟨isReadable_of_isStandard value hvalue, haveReadable_of_haveStandard rest hrest⟩

end

/-- A key greater than all others is written at the end. -/
theorem insert_greatest {done : List (String × Json)} {key : String} (value : Json)
    (h : ∀ e ∈ done, compare e.1 key = .lt) :
    Entries.insert key value done = done ++ [(key, value)] := by
  induction done with
  | nil => rfl
  | cons head rest ih =>
    obtain ⟨k, v⟩ := head
    have hgt : compare key k = .gt := Std.OrientedCmp.gt_iff_lt.2 (h _ (List.mem_cons_self ..))
    unfold Entries.insert
    rw [hgt]
    dsimp only
    rw [ih fun e he => h e (List.mem_cons_of_mem _ he)]
    rfl

mutual

/-- A value in standard form is its own normal form. -/
theorem normal_of_isStandard : (v : Json) → v.isStandard = true → v.normal = v
  | .null, _ => rfl
  | .bool _, _ => rfl
  | .int _, _ => rfl
  | .double _, _ => rfl
  | .string _, _ => rfl
  | .unreadable, _ => rfl
  | .array items, h => congrArg Json.array (normalItems_of_areStandard items h)
  | .object fields, h => by
    obtain ⟨hkeys, hvalues⟩ := Bool.and_eq_true_iff.1 h
    have := normalFields_of_haveStandard fields [] (of_decide_eq_true hkeys) hvalues
    exact congrArg Json.object this

theorem normalItems_of_areStandard : (items : List Json) → areStandard items = true →
    normalItems items = items
  | [], _ => rfl
  | item :: rest, h => by
    obtain ⟨hitem, hrest⟩ := Bool.and_eq_true_iff.1 h
    rw [normalItems, normal_of_isStandard item hitem, normalItems_of_areStandard rest hrest]

theorem normalFields_of_haveStandard : (fields done : List (String × Json)) →
    (done ++ fields).Pairwise (fun a b => compare a.1 b.1 = .lt) → haveStandard fields = true →
      normalFields fields done = done ++ fields
  | [], done, _, _ => (List.append_nil done).symm
  | (key, value) :: rest, done, hkeys, h => by
    obtain ⟨hvalue, hrest⟩ := Bool.and_eq_true_iff.1 h
    have hlast : ∀ e ∈ done, compare e.1 key = .lt := by
      intro e he
      exact (List.pairwise_append.1 hkeys).2.2 e he _ (List.mem_cons_self ..)
    rw [normalFields, normal_of_isStandard value hvalue, insert_greatest value hlast,
      normalFields_of_haveStandard rest _ (by simpa using hkeys) hrest]
    simp

end

/-! ## §2. Strings. -/

/-- A control character, written with four hexadecimal digits. -/
theorem hexUnit?_control :
    ∀ n < 0x20, hexUnit? '0' '0' (hexDigit (n / 16)) (hexDigit (n % 16)) = some n := by
  decide

/-- An escaped character is read back. -/
theorem stringChars_escape (s : Spelling) (c : Char) (rest : List Char) :
    stringChars s (escape c ++ rest) = stringChars (s.char c) rest := by
  unfold escape
  split
  all_goals try rfl
  rename_i h₁ h₂ h₃ h₄ h₅ h₆ h₇
  split
  · rename_i hcontrol
    -- a control character is no surrogate, so it stands for itself
    have hunit : s.unit c.toNat = s.char c := by
      have hlow : isLowSurrogate c.toNat = false := by
        simp only [isLowSurrogate, Bool.and_eq_false_iff, decide_eq_false_iff_not]
        omega
      have hhigh : isHighSurrogate c.toNat = false := by
        simp only [isHighSurrogate, Bool.and_eq_false_iff, decide_eq_false_iff_not]
        omega
      unfold Spelling.unit
      rw [hlow, hhigh]
      simp
    simp only [List.cons_append, List.nil_append]
    rw [stringChars, hexUnit?_control c.toNat hcontrol]
    dsimp only
    rw [hunit]
  · rename_i hplain
    rw [List.singleton_append, stringChars, if_neg hplain]
    · exact h₁
    · exact fun _ _ _ _ _ h _ => h₂ h
    · exact fun _ _ h _ => h₂ h

/-- What was spelled after some more characters. -/
theorem done_foldl_char (s : Spelling) (cs : List Char) :
    (cs.foldl Spelling.char s).done = cs.reverse ++ s.done := by
  induction cs generalizing s with
  | nil => rfl
  | cons c rest ih =>
    rw [List.foldl_cons, ih]
    simp [Spelling.char]

/-- A quoted string is read back. -/
theorem stringChars_quote (s : Spelling) (cs rest : List Char) :
    stringChars s (cs.flatMap escape ++ '\"' :: rest) = some (cs.foldl Spelling.char s, rest) := by
  induction cs generalizing s with
  | nil => rfl
  | cons c cs ih =>
    rw [List.flatMap_cons, List.append_assoc, stringChars_escape, ih, List.foldl_cons]

theorem toList_quote (a : String) :
    (quote a).toList = '\"' :: (a.toList.flatMap escape ++ ['\"']) := by
  unfold quote
  simp

/-- A quoted string ends where it ends, whatever follows. -/
theorem quote_append_injective {a b : String} {s t : List Char}
    (h : (quote a).toList ++ s = (quote b).toList ++ t) : a = b ∧ s = t := by
  simp only [toList_quote, List.cons_append, List.append_assoc, List.nil_append] at h
  -- the reader stops at the closing quote, and gives the characters and the rest back
  have hread := congrArg (stringChars {}) (List.cons.inj h).2
  rw [stringChars_quote, stringChars_quote, Option.some.injEq, Prod.mk.injEq] at hread
  refine ⟨?_, hread.2⟩
  have hdone := congrArg Spelling.done hread.1
  rw [done_foldl_char, done_foldl_char, List.append_nil, List.append_nil] at hdone
  exact String.toList_inj.1 (List.reverse_inj.1 hdone)

/-! ## §3. Numbers. -/

open Double (isNumeral)

/-- What follows a number does not go on with it. -/
def Ends (s : List Char) : Prop := ∀ c ∈ s.head?, isNumeral c = false

theorem Ends.cons {c : Char} (h : isNumeral c = false) (s : List Char) : Ends (c :: s) := by
  intro d hd
  obtain rfl := Option.some.inj hd
  exact h

/-- A number ends where its characters end. -/
theorem numeral_append_injective {a b s t : List Char} (ha : ∀ c ∈ a, isNumeral c = true)
    (hb : ∀ c ∈ b, isNumeral c = true) (hs : Ends s) (ht : Ends t) (h : a ++ s = b ++ t) :
    a = b ∧ s = t :=
  append_injective_of_boundary ha hb hs ht h

/-- The characters of an integer: a sign if it is negative, and digits. -/
theorem toList_toString (n : Int) :
    (toString n).toList =
      if 0 ≤ n then Double.digits n.toNat else '-' :: Double.digits (-n).toNat := by
  rw [Int.toString_eq_repr, Int.repr_eq_if]
  split
  · exact Nat.toList_repr
  · simp [Double.digits]

/-- An integer begins with a sign or a digit, and has neither a point nor an exponent. -/
theorem toString_form (n : Int) : (toString n).toList ≠ [] ∧
    (∀ c ∈ (toString n).toList, isNumeral c = true) ∧
      '.' ∉ (toString n).toList ∧ 'e' ∉ (toString n).toList := by
  have hdigits : ∀ m, (∀ c ∈ Double.digits m, isNumeral c = true) ∧ '.' ∉ Double.digits m ∧
      'e' ∉ Double.digits m := by
    intro m
    have h := Double.allDigits_digits m
    exact ⟨fun c hc => Double.isNumeral_of_isDigit (h c hc), fun hc => (h.ne hc).2 rfl,
      fun hc => (h.ne hc).1 rfl⟩
  rw [toList_toString]
  split
  · exact ⟨Nat.toDigits_ne_nil, hdigits _⟩
  · obtain ⟨hall, hpoint, hletter⟩ := hdigits (-n).toNat
    refine ⟨List.cons_ne_nil _ _, fun c hc => ?_, by simp [hpoint], by simp [hletter]⟩
    rcases List.mem_cons.1 hc with rfl | hc
    · decide
    · exact hall c hc

theorem toString_injective {n m : Int} (h : (toString n).toList = (toString m).toList) :
    n = m := by
  have hread : ∀ m, Nat.ofDigitChars 10 (Double.digits m) 0 = m := fun _ =>
    Nat.ofDigitChars_ten_toDigits
  have hsign : ∀ m l, Double.digits m ≠ '-' :: l := by
    intro m l heq
    have := Double.allDigits_digits m '-' (by simp [heq])
    exact absurd this (by decide)
  rw [toList_toString, toList_toString] at h
  split at h <;> split at h
  · have := congrArg (fun l => Nat.ofDigitChars 10 l 0) h
    simp only [hread] at this
    omega
  · exact absurd h (hsign _ _)
  · exact absurd h.symm (hsign _ _)
  · have := congrArg (fun l => Nat.ofDigitChars 10 l 0) (List.cons.inj h).2
    simp only [hread] at this
    omega

/-! ## §4. Values. -/

/-- The first character of a value, where `0` stands for the beginning of a number. -/
def opening : Json → Char
  | .null => 'n'
  | .bool true => 't'
  | .bool false => 'f'
  | .int _ => '0'
  | .double _ => '0'
  | .string _ => '\"'
  | .array _ => '['
  | .object _ => '\x7b'
  | .unreadable => ' '

/-- What a first character tells. -/
def lead (c : Char) : Char := if isNumeral c then '0' else c

/-- The characters of a number. -/
theorem text_double_numerals {d : Double} (hd : d.isStandard = true) :
    d.text.toList ≠ [] ∧ (∀ c ∈ d.text.toList, isNumeral c = true) ∧
      ('.' ∈ d.text.toList ∨ 'e' ∈ d.text.toList) := by
  obtain ⟨⟨first, rest, hwritten, -⟩, hall, hmark⟩ := Double.written_form hd
  rw [Double.toList_text]
  split
  · refine ⟨List.cons_ne_nil _ _, fun c hc => ?_, ?_⟩
    · rcases List.mem_cons.1 hc with rfl | hc
      · decide
      · exact hall c hc
    · rcases hmark with h | h <;> simp [h]
  · exact ⟨by simp [hwritten], hall, hmark⟩

/-- The first character tells what kind of value it is. -/
theorem text_opening (v : Json) (hv : v.isStandard = true) :
    ∃ c rest, v.text.toList = c :: rest ∧ lead c = v.opening := by
  have hnumber : ∀ l : List Char, l ≠ [] → (∀ c ∈ l, isNumeral c = true) →
      ∃ c rest, l = c :: rest ∧ lead c = '0' := by
    intro l hne hall
    obtain ⟨c, rest, rfl⟩ := List.exists_cons_of_ne_nil hne
    exact ⟨c, rest, rfl, if_pos (hall c (List.mem_cons_self ..))⟩
  cases v with
  | null => exact ⟨'n', _, rfl, by decide⟩
  | bool b =>
    cases b with
    | true => exact ⟨'t', _, rfl, by decide⟩
    | false => exact ⟨'f', _, rfl, by decide⟩
  | int n =>
    obtain ⟨hne, hall, -⟩ := toString_form n
    exact hnumber _ hne hall
  | double d =>
    obtain ⟨hne, hall, -⟩ := text_double_numerals hv
    exact hnumber _ hne hall
  | string a => exact ⟨'\"', _, toList_quote a, rfl⟩
  | array items => exact ⟨'[', _, by simp only [text, String.toList_append]; rfl, rfl⟩
  | object fields => exact ⟨'\x7b', _, by simp only [text, String.toList_append]; rfl, rfl⟩
  | unreadable => cases hv

/-- Texts, each after a comma. -/
def afterCommas (texts : List String) : List Char := texts.flatMap fun a => ',' :: a.toList

theorem afterCommas_cons (a : String) (texts : List String) :
    afterCommas (a :: texts) = ',' :: (a.toList ++ afterCommas texts) := rfl

theorem toList_intercalate_cons (a : String) (texts : List String) :
    (",".intercalate (a :: texts)).toList = a.toList ++ afterCommas texts := by
  induction texts generalizing a with
  | nil => simp [afterCommas]
  | cons b texts ih =>
    rw [String.intercalate_cons_cons, String.toList_append, String.toList_append, ih]
    simp [afterCommas]

theorem ends_afterCommas (texts : List String) {c : Char} (h : isNumeral c = false)
    (s : List Char) : Ends (afterCommas texts ++ c :: s) := by
  cases texts with
  | nil => exact .cons h s
  | cons a texts => exact .cons (by decide) _

theorem toList_array_nil : (text (.array [])).toList = ['[', ']'] := by simp [text, itemTexts]

theorem toList_array_cons (v : Json) (rest : List Json) :
    (text (.array (v :: rest))).toList =
      '[' :: (v.text.toList ++ (afterCommas (itemTexts rest) ++ [']'])) := by
  simp only [text, itemTexts, String.toList_append, toList_intercalate_cons]
  simp

theorem toList_object_nil : (text (.object [])).toList = ['\x7b', '\x7d'] := by
  simp [text, fieldTexts]

theorem toList_object_cons (key : String) (v : Json) (rest : List (String × Json)) :
    (text (.object ((key, v) :: rest))).toList =
      '\x7b' :: ((quote key).toList ++
        ':' :: (v.text.toList ++ (afterCommas (fieldTexts rest) ++ ['\x7d']))) := by
  simp only [text, fieldTexts, String.toList_append, toList_intercalate_cons]
  simp

/-- Values with one text in front are of one kind. -/
theorem opening_eq {a b : Json} {s t : List Char} (ha : a.isStandard = true)
    (hb : b.isStandard = true) (h : a.text.toList ++ s = b.text.toList ++ t) :
    a.opening = b.opening := by
  obtain ⟨c, rest, hatext, hlead⟩ := text_opening a ha
  obtain ⟨d, rest', hbtext, hlead'⟩ := text_opening b hb
  rw [hatext, hbtext] at h
  rw [← hlead, ← hlead', (List.cons.inj h).1]

/-- A value does not begin like the end of an array. -/
theorem not_opening {v : Json} (hv : v.isStandard = true) {s t : List Char} :
    v.text.toList ++ s ≠ ']' :: t := by
  intro h
  obtain ⟨c, rest, htext, hlead⟩ := text_opening v hv
  rw [htext] at h
  rw [(List.cons.inj h).1] at hlead
  cases v with
  | bool b => cases b <;> exact absurd hlead (by decide)
  | _ => exact absurd hlead (by simp only [opening]; decide)

theorem opening_null {b : Json} (h : Json.null.opening = b.opening) : b = .null := by
  cases b with
  | null => rfl
  | bool b => cases b <;> exact absurd h (by decide)
  | _ => exact absurd h (by simp only [opening]; decide)

theorem opening_bool {x : Bool} {b : Json} (h : (Json.bool x).opening = b.opening) :
    b = .bool x := by
  cases b with
  | bool y =>
    cases x <;> cases y
    · rfl
    · exact absurd h (by decide)
    · exact absurd h (by decide)
    · rfl
  | _ => cases x <;> exact absurd h (by simp only [opening]; decide)

theorem opening_number {b : Json} (h : '0' = b.opening) :
    (∃ n, b = .int n) ∨ ∃ d, b = .double d := by
  cases b with
  | int n => exact .inl ⟨n, rfl⟩
  | double d => exact .inr ⟨d, rfl⟩
  | bool b => cases b <;> exact absurd h (by decide)
  | _ => exact absurd h (by simp only [opening]; decide)

theorem opening_string {b : Json} (h : '\"' = b.opening) : ∃ y, b = .string y := by
  cases b with
  | string y => exact ⟨y, rfl⟩
  | bool b => cases b <;> exact absurd h (by decide)
  | _ => exact absurd h (by simp only [opening]; decide)

theorem opening_array {b : Json} (h : '[' = b.opening) : ∃ items, b = .array items := by
  cases b with
  | array items => exact ⟨items, rfl⟩
  | bool b => cases b <;> exact absurd h (by decide)
  | _ => exact absurd h (by simp only [opening]; decide)

theorem opening_object {b : Json} (h : '\x7b' = b.opening) : ∃ fields, b = .object fields := by
  cases b with
  | object fields => exact ⟨fields, rfl⟩
  | bool b => cases b <;> exact absurd h (by decide)
  | _ => exact absurd h (by simp only [opening]; decide)

/-- Two numbers that are followed by something else. -/
theorem number_append_injective {a b : Json} {s t : List Char} (ha : a.isStandard = true)
    (hb : b.isStandard = true) (hs : Ends s) (ht : Ends t) (hnumber : a.opening = '0')
    (h : a.text.toList ++ s = b.text.toList ++ t) : a = b ∧ s = t := by
  have hopening := opening_eq ha hb h
  rcases opening_number hnumber.symm with ⟨n, rfl⟩ | ⟨d, rfl⟩
  · obtain ⟨-, hnall, hpoint, hletter⟩ := toString_form n
    rcases opening_number hopening with ⟨m, rfl⟩ | ⟨e, rfl⟩
    · obtain ⟨heq, hrest⟩ := numeral_append_injective hnall (toString_form m).2.1 hs ht h
      exact ⟨congrArg Json.int (toString_injective heq), hrest⟩
    · -- a double has a point or an exponent
      obtain ⟨-, heall, hmark⟩ := text_double_numerals hb
      obtain ⟨heq, -⟩ := numeral_append_injective hnall heall hs ht h
      rw [← heq] at hmark
      exact absurd hmark (not_or.2 ⟨hpoint, hletter⟩)
  · obtain ⟨-, hdall, hmark⟩ := text_double_numerals ha
    rcases opening_number hopening with ⟨m, rfl⟩ | ⟨e, rfl⟩
    · obtain ⟨-, hmall, hpoint, hletter⟩ := toString_form m
      obtain ⟨heq, -⟩ := numeral_append_injective hdall hmall hs ht h
      rw [heq] at hmark
      exact absurd hmark (not_or.2 ⟨hpoint, hletter⟩)
    · obtain ⟨heq, hrest⟩ := numeral_append_injective hdall (text_double_numerals hb).2.1 hs ht h
      exact ⟨congrArg Json.double (Double.text_injective ha hb (String.toList_inj.1 heq)), hrest⟩

mutual

/-- The text of a value ends where it ends, whatever follows that does not go on with a number. -/
theorem text_append_injective : (a b : Json) → {s t : List Char} → a.isStandard = true →
    b.isStandard = true → Ends s → Ends t → a.text.toList ++ s = b.text.toList ++ t →
      a = b ∧ s = t
  | .null, b, s, t, ha, hb, _, _, h => by
    obtain rfl := opening_null (opening_eq ha hb h)
    exact ⟨rfl, List.append_cancel_left h⟩
  | .bool x, b, s, t, ha, hb, _, _, h => by
    obtain rfl := opening_bool (opening_eq ha hb h)
    exact ⟨rfl, List.append_cancel_left h⟩
  | .int n, b, s, t, ha, hb, hs, ht, h => number_append_injective ha hb hs ht rfl h
  | .double d, b, s, t, ha, hb, hs, ht, h => number_append_injective ha hb hs ht rfl h
  | .string x, b, s, t, ha, hb, _, _, h => by
    obtain ⟨y, rfl⟩ := opening_string (opening_eq ha hb h)
    obtain ⟨rfl, hrest⟩ := quote_append_injective h
    exact ⟨rfl, hrest⟩
  | .array items, b, s, t, ha, hb, _, _, h => by
    obtain ⟨items', rfl⟩ := opening_array (opening_eq ha hb h)
    match items, items' with
    | [], [] => exact ⟨rfl, List.append_cancel_left h⟩
    -- an item does not begin with the bracket that ends an empty array
    | [], w :: rest' =>
      simp only [toList_array_nil, toList_array_cons, List.cons_append, List.append_assoc,
        List.nil_append] at h
      exact absurd (List.cons.inj h).2.symm (not_opening (Bool.and_eq_true_iff.1 hb).1)
    | v :: rest, [] =>
      simp only [toList_array_nil, toList_array_cons, List.cons_append, List.append_assoc,
        List.nil_append] at h
      exact absurd (List.cons.inj h).2 (not_opening (Bool.and_eq_true_iff.1 ha).1)
    | v :: rest, w :: rest' =>
      obtain ⟨hv, hrest⟩ := Bool.and_eq_true_iff.1 ha
      obtain ⟨hw, hrest'⟩ := Bool.and_eq_true_iff.1 hb
      simp only [toList_array_cons, List.cons_append, List.append_assoc, List.nil_append] at h
      obtain ⟨rfl, hitems⟩ := text_append_injective v w hv hw (ends_afterCommas _ (by decide) _)
        (ends_afterCommas _ (by decide) _) (List.cons.inj h).2
      obtain ⟨rfl, hend⟩ := items_append_injective rest rest' hrest hrest' hitems
      exact ⟨rfl, hend⟩
  | .object fields, b, s, t, ha, hb, _, _, h => by
    obtain ⟨fields', rfl⟩ := opening_object (opening_eq ha hb h)
    have hfields := (Bool.and_eq_true_iff.1 ha).2
    have hfields' := (Bool.and_eq_true_iff.1 hb).2
    match fields, fields' with
    | [], [] => exact ⟨rfl, List.append_cancel_left h⟩
    -- a key begins with a quote, and an empty object ends instead
    | [], (key, w) :: rest' =>
      simp only [toList_object_nil, toList_object_cons, toList_quote, List.cons_append] at h
      exact absurd (List.cons.inj (List.cons.inj h).2).1 (by decide)
    | (key, v) :: rest, [] =>
      simp only [toList_object_nil, toList_object_cons, toList_quote, List.cons_append] at h
      exact absurd (List.cons.inj (List.cons.inj h).2).1 (by decide)
    | (key, v) :: rest, (key', w) :: rest' =>
      obtain ⟨hv, hrest⟩ := Bool.and_eq_true_iff.1 hfields
      obtain ⟨hw, hrest'⟩ := Bool.and_eq_true_iff.1 hfields'
      simp only [toList_object_cons, List.cons_append, List.append_assoc, List.nil_append] at h
      obtain ⟨rfl, hvalue⟩ := quote_append_injective (List.cons.inj h).2
      obtain ⟨rfl, hothers⟩ := text_append_injective v w hv hw (ends_afterCommas _ (by decide) _)
        (ends_afterCommas _ (by decide) _) (List.cons.inj hvalue).2
      obtain ⟨rfl, hend⟩ := fields_append_injective rest rest' hrest hrest' hothers
      exact ⟨rfl, hend⟩

theorem items_append_injective : (as bs : List Json) → {s t : List Char} →
    areStandard as = true → areStandard bs = true →
      afterCommas (itemTexts as) ++ ']' :: s = afterCommas (itemTexts bs) ++ ']' :: t →
        as = bs ∧ s = t
  | [], [], _, _, _, _, h => ⟨rfl, (List.cons.inj h).2⟩
  | [], _ :: _, _, _, _, _, h => absurd (List.cons.inj h).1 (by decide)
  | _ :: _, [], _, _, _, _, h => absurd (List.cons.inj h).1 (by decide)
  | a :: as, b :: bs, s, t, ha, hb, h => by
    obtain ⟨hfirst, has⟩ := Bool.and_eq_true_iff.1 ha
    obtain ⟨hfirst', hbs⟩ := Bool.and_eq_true_iff.1 hb
    simp only [itemTexts, afterCommas_cons, List.cons_append, List.append_assoc] at h
    obtain ⟨rfl, hitems⟩ := text_append_injective a b hfirst hfirst'
      (ends_afterCommas _ (by decide) _) (ends_afterCommas _ (by decide) _) (List.cons.inj h).2
    obtain ⟨rfl, hend⟩ := items_append_injective as bs has hbs hitems
    exact ⟨rfl, hend⟩

theorem fields_append_injective : (as bs : List (String × Json)) → {s t : List Char} →
    haveStandard as = true → haveStandard bs = true →
      afterCommas (fieldTexts as) ++ '\x7d' :: s = afterCommas (fieldTexts bs) ++ '\x7d' :: t →
        as = bs ∧ s = t
  | [], [], _, _, _, _, h => ⟨rfl, (List.cons.inj h).2⟩
  | [], _ :: _, _, _, _, _, h => absurd (List.cons.inj h).1 (by decide)
  | _ :: _, [], _, _, _, _, h => absurd (List.cons.inj h).1 (by decide)
  | (key, a) :: as, (key', b) :: bs, s, t, ha, hb, h => by
    obtain ⟨hfirst, has⟩ := Bool.and_eq_true_iff.1 ha
    obtain ⟨hfirst', hbs⟩ := Bool.and_eq_true_iff.1 hb
    have hcolon : ":".toList = [':'] := rfl
    simp only [fieldTexts, afterCommas_cons, String.toList_append, hcolon, List.cons_append,
      List.append_assoc, List.nil_append] at h
    obtain ⟨rfl, hvalue⟩ := quote_append_injective (List.cons.inj h).2
    obtain ⟨rfl, hothers⟩ := text_append_injective a b hfirst hfirst'
      (ends_afterCommas _ (by decide) _) (ends_afterCommas _ (by decide) _) (List.cons.inj hvalue).2
    obtain ⟨rfl, hend⟩ := fields_append_injective as bs has hbs hothers
    exact ⟨rfl, hend⟩

end

/-- Two values with one text are one value. -/
theorem text_injective {a b : Json} (ha : a.isStandard = true) (hb : b.isStandard = true)
    (h : a.text = b.text) : a = b := by
  have hnil : Ends [] := fun c hc => by cases hc
  exact (text_append_injective a b ha hb hnil hnil (by rw [h])).1

end Json

end Notebook
