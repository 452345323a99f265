import Mathlib.Data.List.Forall2
import ConicSaddle.Cone.DimsText
import ConicSaddle.Proofs.Json.Writing

/-!
# Descriptors read from texts

A descriptor is read exactly from the texts of its three fields, so a text cannot hold a descriptor
that could not be made otherwise.

* `Json.IsWord`, `Json.IsWords`, `Json.HasField`, `Json.HoldsFields`: the fields that a value holds;
* `ConeDims.rawOfText?_eq_some_iff`: the fields that are read;
* `ConeDims.text_unforgeable`: descriptors and texts.
-/

namespace ConicSaddle

open Decimal (digits ofDigits)

namespace Json

/-- The value is the natural number, below the limit of a word. -/
def IsWord (v : Json) (n : ℕ) : Prop :=
  ∃ ds, v = number ⟨false, ds, none, none⟩ ∧ ofDigits ds = n ∧ n < Word.limit

/-- The value is the list of natural numbers. -/
def IsWords (v : Json) (ns : List ℕ) : Prop :=
  ∃ items, v = array items ∧ List.Forall₂ IsWord items ns

/-- The value is that of the only member with the name. -/
def HasField (members : List (Option String × Json)) (name : String) (v : Json) : Prop :=
  ∃ front back, members = front ++ (some name, v) :: back ∧
    ∀ m ∈ front ++ back, m.1 ≠ some name

/-- The value holds the three fields of a descriptor: by their names, in any order and with other
members around them, or as an array. -/
inductive HoldsFields : Json → ℕ → List ℕ → List ℕ → Prop
  | object {members : List (Option String × Json)} {jl jq js : Json} {l : ℕ} {q s : List ℕ}
      (hkeys : ∀ m ∈ members, m.1 ≠ none) (hl : HasField members "l" jl)
      (hq : HasField members "q" jq) (hs : HasField members "s" js) (hjl : jl.IsWord l)
      (hjq : jq.IsWords q) (hjs : js.IsWords s) : HoldsFields (object members) l q s
  | array {jl jq js : Json} {l : ℕ} {q s : List ℕ} (hjl : jl.IsWord l) (hjq : jq.IsWords q)
      (hjs : js.IsWords s) : HoldsFields (array [jl, jq, js]) l q s

/-- The field of the second order cones has a number in it that is zero, however it is written. -/
inductive ZeroInQ : Json → Prop
  | object {members : List (Option String × Json)} {items : List Json} {n : NumberText}
      (hq : (some "q", array items) ∈ members) (hn : number n ∈ items) (hzero : n.coefficient = 0) :
      ZeroInQ (object members)
  | array {jl : Json} {items rest : List Json} {n : NumberText} (hn : number n ∈ items)
      (hzero : n.coefficient = 0) : ZeroInQ (array (jl :: array items :: rest))

theorem toNat?_eq_some_iff {v : Json} {n : ℕ} : v.toNat? Word.limit = some n ↔ v.IsWord n := by
  cases v with
  | number t =>
    obtain ⟨negative, whole, fraction, power⟩ := t
    cases negative <;> cases fraction <;> cases power <;>
      simp [toNat?, NumberText.toNat?, NumberText.isInteger, IsWord, Option.filter_eq_some_iff]
  | _ => simp [toNat?, IsWord]

theorem toNats?_eq_some_iff {v : Json} {ns : List ℕ} :
    v.toNats? Word.limit = some ns ↔ v.IsWords ns := by
  cases v with
  | array items =>
    have hitems : items.mapM (toNat? Word.limit) = some ns ↔ List.Forall₂ IsWord items ns := by
      induction items generalizing ns with
      | nil => simp [List.forall₂_nil_left_iff, eq_comm]
      | cons item items ih =>
        cases ns <;> simp [List.mapM_cons, Option.bind_eq_some_iff, toNat?_eq_some_iff, ih,
          List.forall₂_nil_right_iff]
    simp [toNats?, IsWords, hitems]
  | _ => simp [toNats?, IsWords]

theorem member?_eq_some_iff {members : List (Option String × Json)} {name : String} {v : Json} :
    member? members name = some (some v) ↔ HasField members name v := by
  unfold member?
  constructor
  · intro h
    split at h
    · cases h
    · next m hm =>
      cases h
      obtain ⟨front, back, rfl, hfront, hkey, hback⟩ := List.filter_eq_cons_iff.mp hm
      rw [List.filter_eq_nil_iff] at hback
      have hname : m.1 = some name := by simpa using hkey
      refine ⟨front, back, by rw [← hname], fun m hm => ?_⟩
      rcases List.mem_append.mp hm with hm | hm
      · simpa using hfront m hm
      · simpa using hback m hm
    · cases h
  · rintro ⟨front, back, rfl, hne⟩
    have hfront : front.filter (fun m => m.1 == some name) = [] := by
      simp only [List.filter_eq_nil_iff, beq_iff_eq]
      exact fun m hm => hne m (List.mem_append_left _ hm)
    have hback : back.filter (fun m => m.1 == some name) = [] := by
      simp only [List.filter_eq_nil_iff, beq_iff_eq]
      exact fun m hm => hne m (List.mem_append_right _ hm)
    simp [List.filter_append, hfront, hback]

theorem fields?_eq_some_iff {json jl jq js : Json} :
    json.fields? ConeDims.fieldNames = some [some jl, some jq, some js] ↔
      (∃ members, json = object members ∧ (∀ m ∈ members, m.1 ≠ none) ∧ HasField members "l" jl ∧
        HasField members "q" jq ∧ HasField members "s" js) ∨ json = array [jl, jq, js] := by
  cases json with
  | object members =>
    simp [fields?, ConeDims.fieldNames, List.mapM_cons, Option.bind_eq_some_iff,
      member?_eq_some_iff, Option.ne_none_iff_isSome]
  | array items =>
    rcases items with _ | ⟨a, _ | ⟨b, _ | ⟨c, _ | ⟨d, items⟩⟩⟩⟩ <;>
      simp [fields?, ConeDims.fieldNames]
  | _ => simp [fields?]

/-- The fields that a value holds are those that are taken from it. -/
theorem holdsFields_iff {json : Json} {l : ℕ} {q s : List ℕ} :
    json.HoldsFields l q s ↔ ∃ jl jq js,
      json.fields? ConeDims.fieldNames = some [some jl, some jq, some js] ∧
        jl.toNat? Word.limit = some l ∧ jq.toNats? Word.limit = some q ∧
        js.toNats? Word.limit = some s := by
  simp only [fields?_eq_some_iff, toNat?_eq_some_iff, toNats?_eq_some_iff]
  constructor
  · rintro (⟨hkeys, hl, hq, hs, hjl, hjq, hjs⟩ | ⟨hjl, hjq, hjs⟩)
    · exact ⟨_, _, _, .inl ⟨_, rfl, hkeys, hl, hq, hs⟩, hjl, hjq, hjs⟩
    · exact ⟨_, _, _, .inr rfl, hjl, hjq, hjs⟩
  · rintro ⟨jl, jq, js, ⟨members, rfl, hkeys, hl, hq, hs⟩ | rfl, hjl, hjq, hjs⟩
    · exact .object hkeys hl hq hs hjl hjq hjs
    · exact .array hjl hjq hjs

/-- Where all natural numbers of a list are positive, no item is zero, however it is written. -/
theorem IsWords.ne_zero {items : List Json} {ns : List ℕ} (h : IsWords (array items) ns)
    (hns : ∀ k ∈ ns, 0 < k) {n : NumberText} (hn : number n ∈ items) : n.coefficient ≠ 0 := by
  obtain ⟨_, hitems, hwords⟩ := h
  obtain rfl := array.inj hitems
  induction hwords with
  | nil => cases hn
  | cons hword _ ih =>
    rcases List.mem_cons.mp hn with rfl | hn
    · obtain ⟨ds, hnumber, hvalue, -⟩ := hword
      obtain rfl := number.inj hnumber
      have := hns _ (List.mem_cons_self ..)
      simp [NumberText.coefficient]
      omega
    · exact ih (fun k hk => hns k (List.mem_cons_of_mem _ hk)) hn rfl

theorem HasField.eq_of_mem {members : List (Option String × Json)} {name : String} {v v' : Json}
    (h : HasField members name v) (hmem : (some name, v') ∈ members) : v' = v := by
  obtain ⟨front, back, rfl, hne⟩ := h
  rcases List.mem_append.mp hmem with hfront | hmem
  · exact absurd rfl (hne _ (List.mem_append_left _ hfront))
  · rcases List.mem_cons.mp hmem with h | hback
    · exact (Prod.mk.inj h).2
    · exact absurd rfl (hne _ (List.mem_append_right _ hback))

theorem HoldsFields.not_zeroInQ {json : Json} {l : ℕ} {q s : List ℕ} (h : json.HoldsFields l q s)
    (hq : ∀ k ∈ q, 0 < k) : ¬json.ZeroInQ := by
  intro hzero
  cases h with
  | object _ _ hfield _ _ hwords _ =>
    cases hzero with
    | object hmem hn hzero =>
      obtain rfl := hfield.eq_of_mem hmem
      exact hwords.ne_zero hq hn hzero
  | array _ hwords _ =>
    cases hzero with
    | array hn hzero => exact hwords.ne_zero hq hn hzero

end Json

namespace ConeDims

open Json (IsTextOf)

/-- The three dimensions that are read are those that the text holds. -/
theorem rawOfText?_eq_some_iff {text : String} {l : ℕ} {q s : List ℕ} :
    rawOfText? text = some (l, q, s) ↔ ∃ json, IsTextOf text json ∧ json.HoldsFields l q s := by
  simp only [rawOfText?, Option.bind_eq_bind, Option.bind_eq_some_iff, Json.read_eq_some_iff,
    Json.holdsFields_iff]
  refine exists_congr fun json => and_congr_right fun _ => ?_
  constructor
  · rintro ⟨fields, hfields, h⟩
    split at h
    · next jl jq js =>
      simp only [Option.bind_eq_some_iff] at h
      obtain ⟨_, hl, _, hq, _, hs, h⟩ := h
      cases h
      exact ⟨jl, jq, js, hfields, hl, hq, hs⟩
    · cases h
  · rintro ⟨jl, jq, js, hfields, hl, hq, hs⟩
    exact ⟨_, hfields, by simp [hl, hq, hs]⟩

theorem new_self (d : ConeDims) : new d.l d.q d.s = .ok d := dif_pos d.q_pos

theorem fields_of_new {l : ℕ} {q s : List ℕ} {d : ConeDims} (h : new l q s = .ok d) :
    d.l = l ∧ d.q = q ∧ d.s = s := by
  unfold new at h
  split at h
  · cases h
    exact ⟨rfl, rfl, rfl⟩
  · cases h

theorem ofText?_of_raw {text : String} {l : ℕ} {q s : List ℕ}
    (h : rawOfText? text = some (l, q, s)) : ofText? text = (new l q s).toOption := by
  simp [ofText?, h]

theorem raw_of_ofText? {text : String} {d : ConeDims} (h : ofText? text = some d) :
    rawOfText? text = some (d.l, d.q, d.s) := by
  obtain ⟨⟨l, q, s⟩, hraw, -⟩ := Option.bind_eq_some_iff.mp h
  rw [ofText?_of_raw hraw] at h
  cases hnew : new l q s with
  | error e =>
    rw [hnew] at h
    cases h
  | ok d' =>
    rw [hnew] at h
    obtain rfl : d' = d := Option.some.inj h
    obtain ⟨rfl, rfl, rfl⟩ := fields_of_new hnew
    exact hraw

/-! ### What is written -/

theorem isWord_ofNat {n : ℕ} (h : n < Word.limit) : (Json.ofNat n).IsWord n :=
  ⟨digits n, rfl, Decimal.ofDigits_digits n, h⟩

theorem isWords_ofNat {ns : List ℕ} (h : ∀ n ∈ ns, n < Word.limit) :
    (Json.array (ns.map Json.ofNat)).IsWords ns := by
  refine ⟨_, rfl, ?_⟩
  rw [List.forall₂_map_left_iff, List.forall₂_same]
  exact fun n hn => isWord_ofNat (h n hn)

theorem wellFormed_ofNat (n : ℕ) : (Json.ofNat n).WellFormed where
  whole := ⟨⟨Decimal.digits_ne_nil n, fun _ => Decimal.digits_lt⟩, fun tail h => by
    obtain rfl := Decimal.eq_zero_of_digits h
    rw [Decimal.digits_of_lt (by decide)] at h
    exact (List.cons.inj h).2.symm⟩
  fraction := by simp
  power := by simp

theorem wellFormedItems_ofNat (ns : List ℕ) : Json.WellFormedItems (ns.map Json.ofNat) := by
  induction ns with
  | nil => trivial
  | cons n ns ih => exact ⟨wellFormed_ofNat n, ih⟩

theorem wellFormed_toJson (d : ConeDims) : d.toJson.WellFormed := by
  simp [toJson, Json.WellFormed, Json.WellFormedMembers, wellFormed_ofNat, wellFormedItems_ofNat]

theorem holdsFields_toJson {d : ConeDims} (hl : d.l < Word.limit) (hq : ∀ k ∈ d.q, k < Word.limit)
    (hs : ∀ k ∈ d.s, k < Word.limit) : d.toJson.HoldsFields d.l d.q d.s :=
  .object (by simp) ⟨[], _, rfl, by simp⟩ ⟨[_], _, rfl, by simp⟩ ⟨[_, _], _, rfl, by simp⟩
    (isWord_ofNat hl) (isWords_ofNat hq) (isWords_ofNat hs)

/-! ### Descriptors and texts -/

/-- **Texts do not forge descriptors.**  A descriptor is read back from its text, if its dimensions
fit in words.  From a text that holds three fields, the descriptor with these dimensions is read,
if there is one; and if a descriptor was read, then its second order cones have dimensions and the
text holds its fields.  No descriptor is read from a text with a zero in the field of the second
order cones, whatever else the text holds. -/
theorem text_unforgeable :
    (∀ d : ConeDims, d.l < Word.limit → (∀ k ∈ d.q, k < Word.limit) →
      (∀ k ∈ d.s, k < Word.limit) → ofText? d.text = some d) ∧
    (∀ text json l q s, IsTextOf text json → json.HoldsFields l q s →
      ofText? text = (new l q s).toOption) ∧
    (∀ text d, ofText? text = some d → (∀ k ∈ d.q, 1 ≤ k) ∧ new d.l d.q d.s = .ok d ∧
      ∃ json, IsTextOf text json ∧ json.HoldsFields d.l d.q d.s) ∧
    (∀ text json, IsTextOf text json → json.ZeroInQ → ofText? text = none) := by
  have hraw : ∀ {text json l q s}, IsTextOf text json → json.HoldsFields l q s →
      ofText? text = (new l q s).toOption := fun htext hfields =>
    ofText?_of_raw (rawOfText?_eq_some_iff.mpr ⟨_, htext, hfields⟩)
  refine ⟨fun d hl hq hs => ?_, fun text json l q s => hraw, fun text d h => ?_,
    fun text json htext hzero => ?_⟩
  · have htext : IsTextOf d.text d.toJson := Json.isTextOf_text (wellFormed_toJson d)
    rw [hraw htext (holdsFields_toJson hl hq hs), new_self]
    rfl
  · exact ⟨d.q_pos, new_self d, rawOfText?_eq_some_iff.mp (raw_of_ofText? h)⟩
  · cases h : ofText? text with
    | none => rfl
    | some d =>
      obtain ⟨json', htext', hfields⟩ := rawOfText?_eq_some_iff.mp (raw_of_ofText? h)
      obtain rfl := htext.unique htext'
      exact absurd hzero (hfields.not_zeroInQ d.q_pos)

/-! ### A record with a zero -/

/-- A descriptor with cones of every kind. -/
def mixedDims : ConeDims := ⟨3, [2, 4], [3], by decide⟩

/-- A record whose second order cones have no dimensions. -/
def zeroRecord : Json :=
  .object [(some "s", .array []), (some "q", .array [.ofNat 4, .ofNat 0]), (some "l", .ofNat 1)]

theorem text_unforgeable_zero :
    ofText? mixedDims.text = some mixedDims ∧ ofText? zeroRecord.text = none := by
  obtain ⟨hback, -, -, hrejected⟩ := text_unforgeable
  have hwritten : zeroRecord.WellFormed := by
    simp [zeroRecord, Json.WellFormed, Json.WellFormedMembers, Json.WellFormedItems,
      wellFormed_ofNat]
  have hzero : zeroRecord.ZeroInQ :=
    .object (List.mem_cons_of_mem _ (List.mem_cons_self ..))
      (List.mem_cons_of_mem _ (List.mem_cons_self ..)) (by simp [NumberText.coefficient])
  exact ⟨hback mixedDims (by decide) (by decide) (by decide),
    hrejected _ zeroRecord (Json.isTextOf_text hwritten) hzero⟩

end ConeDims

end ConicSaddle
