import ConicSaddle.Proofs.Json.Scanning

/-!
# Reading values

A text is read as a value exactly if it is a text of that value in the grammar.

* `ReadsTexts`, `readsTexts`: whatever is read is a text of the grammar, by induction on the fuel;
* `readValue_of_spells`: texts of the grammar are read, with fuel for twice their length;
* `read_eq_some_iff`: whole texts.
-/

namespace ConicSaddle.Json

theorem after?_eq_some {word cs rest : List Char} (h : after? word cs = some rest) :
    cs = word ++ rest := by
  induction word generalizing cs with
  | nil => exact Option.some.inj h
  | cons w word ih =>
    cases cs with
    | nil => cases h
    | cons c cs =>
      unfold after? at h
      split_ifs at h with hc
      rw [hc, ih h, List.cons_append]

/-- A value that is written as a word. -/
theorem after?_sound {word cs rest : List Char} {v v' : Json}
    (h : (after? word cs).map (v, ·) = some (v', rest)) : v = v' ∧ cs = word ++ rest := by
  obtain ⟨rest', hrest, h⟩ := Option.map_eq_some_iff.mp h
  cases h
  exact ⟨rfl, after?_eq_some hrest⟩

theorem blank_nil : Blank [] := by simp [Blank]

theorem Blank.append {w w' : List Char} (hw : Blank w) (hw' : Blank w') : Blank (w ++ w') := by
  intro c hc
  rcases List.mem_append.mp hc with hc | hc
  · exact hw c hc
  · exact hw' c hc

theorem SpellsItems.blank_append {items : List Json} {w cs : List Char} (hw : Blank w)
    (h : SpellsItems items cs) : SpellsItems items (w ++ cs) := by
  cases h with
  | last hw' hitem hback =>
    rw [← List.append_assoc]
    exact .last (hw.append hw') hitem hback
  | cons hw' hitem hback hitems =>
    rw [← List.append_assoc]
    exact .cons (hw.append hw') hitem hback hitems

theorem SpellsMembers.blank_append {members : List (Option String × Json)} {w cs : List Char}
    (hw : Blank w) (h : SpellsMembers members cs) : SpellsMembers members (w ++ cs) := by
  cases h with
  | last hw' hkey hu hv hvalue hback =>
    rw [← List.append_assoc]
    exact .last (hw.append hw') hkey hu hv hvalue hback
  | cons hw' hkey hu hv hvalue hback hmembers =>
    rw [← List.append_assoc]
    exact .cons (hw.append hw') hkey hu hv hvalue hback hmembers

/-! ### What is read -/

/-- Whatever is read with the given fuel is a text of the grammar. -/
structure ReadsTexts (fuel : ℕ) : Prop where
  value : ∀ {cs v rest}, readValue fuel cs = some (v, rest) →
    ∃ w front, Blank w ∧ Spells v front ∧ cs = w ++ (front ++ rest)
  items : ∀ {cs items rest}, readItems fuel cs = some (items, rest) →
    ∃ front, SpellsItems items front ∧ cs = front ++ rest
  members : ∀ {cs members rest}, readMembers fuel cs = some (members, rest) →
    ∃ front, SpellsMembers members front ∧ cs = front ++ rest

theorem ReadsTexts.value_step {fuel : ℕ} (ih : ReadsTexts fuel) {cs rest : List Char} {v : Json}
    (h : readValue (fuel + 1) cs = some (v, rest)) :
    ∃ w front, Blank w ∧ Spells v front ∧ cs = w ++ (front ++ rest) := by
  obtain ⟨w, hw, hcs⟩ := exists_skip cs
  suffices hfront : ∃ front, Spells v front ∧ skip cs = front ++ rest by
    obtain ⟨front, hv, hskip⟩ := hfront
    exact ⟨w, front, hw, hv, hskip ▸ hcs⟩
  rw [readValue] at h
  split at h
  · cases h
  · next c tail hskip =>
    rw [hskip]
    obtain ⟨w', hw', htail⟩ := exists_skip tail
    split_ifs at h with hstring harray hobject hnull htrue hfalse
    · subst hstring
      obtain ⟨s, hs, rfl⟩ := exists_of_wrapped h
      obtain ⟨front, hfront, rfl⟩ := scans_string.sound hs
      exact ⟨_, .string hfront, rfl⟩
    · subst harray
      split at h
      · next rest' hend =>
        cases h
        exact ⟨_, .emptyArray hw', by rw [htail, hend]; simp⟩
      · obtain ⟨items, hitems, rfl⟩ := exists_of_wrapped h
        obtain ⟨front, hfront, hskip'⟩ := ih.items hitems
        exact ⟨_, .array (hfront.blank_append hw'), by rw [htail, hskip']; simp⟩
    · subst hobject
      split at h
      · next rest' hend =>
        cases h
        exact ⟨_, .emptyObject hw', by rw [htail, hend]; simp⟩
      · obtain ⟨members, hmembers, rfl⟩ := exists_of_wrapped h
        obtain ⟨front, hfront, hskip'⟩ := ih.members hmembers
        exact ⟨_, .object (hfront.blank_append hw'), by rw [htail, hskip']; simp⟩
    · obtain ⟨rfl, rfl⟩ := after?_sound h
      exact ⟨_, .null, by rw [hnull]; rfl⟩
    · obtain ⟨rfl, rfl⟩ := after?_sound h
      exact ⟨_, .boolTrue, by rw [htrue]; rfl⟩
    · obtain ⟨rfl, rfl⟩ := after?_sound h
      exact ⟨_, .boolFalse, by rw [hfalse]; rfl⟩
    · obtain ⟨n, hn, rfl⟩ := exists_of_wrapped h
      obtain ⟨front, hfront, hcons⟩ := scans_number.sound hn
      exact ⟨front, .number hfront, hcons⟩

theorem ReadsTexts.items_step {fuel : ℕ} (ih : ReadsTexts fuel) {cs rest : List Char}
    {items : List Json} (h : readItems (fuel + 1) cs = some (items, rest)) :
    ∃ front, SpellsItems items front ∧ cs = front ++ rest := by
  simp only [readItems, Option.bind_eq_bind, Option.bind_eq_some_iff, Prod.exists] at h
  obtain ⟨item, after, hitem, h⟩ := h
  obtain ⟨w, front, hw, hfront, rfl⟩ := ih.value hitem
  obtain ⟨w', hw', hafter⟩ := exists_skip after
  split at h
  · next rest' hskip =>
    obtain ⟨items', hitems, rfl⟩ := exists_of_wrapped h
    obtain ⟨back, hback, rfl⟩ := ih.items hitems
    exact ⟨_, .cons hw hfront hw' hback, by rw [hafter, hskip]; simp⟩
  · next rest' hskip =>
    cases h
    exact ⟨_, .last hw hfront hw', by rw [hafter, hskip]; simp⟩
  · cases h

theorem ReadsTexts.members_step {fuel : ℕ} (ih : ReadsTexts fuel) {cs rest : List Char}
    {members : List (Option String × Json)} (h : readMembers (fuel + 1) cs = some (members, rest)) :
    ∃ front, SpellsMembers members front ∧ cs = front ++ rest := by
  obtain ⟨w, hw, hcs⟩ := exists_skip cs
  rw [readMembers] at h
  split at h
  · next quoted hquote =>
    simp only [Option.bind_eq_bind, Option.bind_eq_some_iff, Prod.exists] at h
    obtain ⟨key, after, hkey, h⟩ := h
    obtain ⟨ks, hks, rfl⟩ := scans_string.sound hkey
    obtain ⟨u, hu, hafter⟩ := exists_skip after
    split at h
    · next valued hcolon =>
      simp only [Option.bind_eq_some_iff, Prod.exists] at h
      obtain ⟨value, after', hvalue, h⟩ := h
      obtain ⟨v, front, hv, hfront, rfl⟩ := ih.value hvalue
      obtain ⟨w', hw', hafter'⟩ := exists_skip after'
      split at h
      · next rest' hskip =>
        obtain ⟨members', hmembers, rfl⟩ := exists_of_wrapped h
        obtain ⟨back, hback, rfl⟩ := ih.members hmembers
        refine ⟨_, .cons hw hks hu hv hfront hw' hback, ?_⟩
        rw [hcs, hquote, hafter, hcolon, hafter', hskip]
        simp
      · next rest' hskip =>
        cases h
        refine ⟨_, .last hw hks hu hv hfront hw', ?_⟩
        rw [hcs, hquote, hafter, hcolon, hafter', hskip]
        simp
      · cases h
    · cases h
  · cases h

theorem readsTexts (fuel : ℕ) : ReadsTexts fuel := by
  induction fuel with
  | zero => exact ⟨nofun, nofun, nofun⟩
  | succ fuel ih => exact ⟨ih.value_step, ih.items_step, ih.members_step⟩

/-! ### What can be read -/

/-- A character that may follow a value. -/
def Closes (c : Char) : Prop := isBlank c = true ∨ c = ',' ∨ c = ']' ∨ c = '\x7d'

theorem Closes.endsNumber {c : Char} (h : Closes c) : EndsNumber c := by
  rcases h with h | rfl | rfl | rfl
  · simp only [isBlank, Bool.or_eq_true, beq_iff_eq] at h
    rcases h with ((rfl | rfl) | rfl) | rfl <;> simp [EndsNumber]
  all_goals simp [EndsNumber]

theorem Blank.before_closes {w rest : List Char} (hw : Blank w) (hrest : Before Closes rest) :
    Before Closes (w ++ rest) := by
  cases w with
  | nil => exact hrest
  | cons c w => simp [Closes, hw c (by simp)]

theorem SpellsNumber.exists_cons {n : NumberText} {front : List Char} (h : SpellsNumber n front) :
    ∃ c cs, front = c :: cs ∧ (c = '-' ∨ c.isDigit = true) := by
  cases h with
  | negative h => exact ⟨_, _, rfl, .inl rfl⟩
  | positive h =>
    obtain ⟨c, cs, hcons, hc⟩ := h.exists_cons
    exact ⟨c, cs, hcons, .inr hc⟩

theorem ne_of_startsNumber {c d : Char} (hc : c = '-' ∨ c.isDigit = true) (hd : d ≠ '-')
    (hd' : d.isDigit = false) : c ≠ d := by
  rintro rfl
  rcases hc with rfl | hc
  · exact hd rfl
  · exact absurd hc (by simp [hd'])

/-- A value starts with a character that is neither white space nor the end of an array. -/
theorem Spells.exists_cons {v : Json} {front : List Char} (h : Spells v front) :
    ∃ c cs, front = c :: cs ∧ isBlank c = false ∧ c ≠ ']' := by
  cases h with
  | number h =>
    obtain ⟨c, cs, hcons, hc⟩ := h.exists_cons
    have hne : ∀ d, d ≠ '-' → d.isDigit = false → c ≠ d := fun _ => ne_of_startsNumber hc
    exact ⟨c, cs, hcons, by simp [isBlank, hne], hne _ (by decide) (by decide)⟩
  | _ => exact ⟨_, _, rfl, rfl, by decide⟩

theorem SpellsItems.exists_skip {items : List Json} {front : List Char}
    (h : SpellsItems items front) (rest : List Char) :
    ∃ c tail, skip (front ++ rest) = c :: tail ∧ c ≠ ']' := by
  cases h with
  | last hw hitem _ | cons hw hitem _ _ =>
    obtain ⟨c, cs, rfl, hblank, hc⟩ := hitem.exists_cons
    exact ⟨c, _, (congrArg skip (List.append_assoc ..)).trans
      ((skip_append hw _).trans (skip_cons hblank _)), hc⟩

theorem SpellsMembers.exists_skip {members : List (Option String × Json)} {front : List Char}
    (h : SpellsMembers members front) (rest : List Char) :
    ∃ tail, skip (front ++ rest) = '"' :: tail := by
  cases h with
  | last hw | cons hw =>
    exact ⟨_, (congrArg skip (List.append_assoc ..)).trans
      ((skip_append hw _).trans (skip_cons rfl _))⟩

theorem readValue_skip (fuel : ℕ) (cs : List Char) :
    readValue fuel (skip cs) = readValue fuel cs := by
  cases fuel with
  | zero => rfl
  | succ fuel => rw [readValue, readValue, skip_skip]

theorem readValue_append {w : List Char} (hw : Blank w) (fuel : ℕ) (cs : List Char) :
    readValue fuel (w ++ cs) = readValue fuel cs := by
  rw [← readValue_skip, skip_append hw, readValue_skip]

theorem readItems_skip (fuel : ℕ) (cs : List Char) :
    readItems fuel (skip cs) = readItems fuel cs := by
  cases fuel with
  | zero => rfl
  | succ fuel => rw [readItems, readItems, readValue_skip]

theorem readMembers_skip (fuel : ℕ) (cs : List Char) :
    readMembers fuel (skip cs) = readMembers fuel cs := by
  cases fuel with
  | zero => rfl
  | succ fuel => rw [readMembers, readMembers, skip_skip]

theorem readValue_number {c : Char} (hc : c = '-' ∨ c.isDigit = true) (fuel : ℕ) (cs : List Char) :
    readValue (fuel + 1) (c :: cs) = (do
      let (n, rest) ← readNumber (c :: cs)
      pure (.number n, rest)) := by
  have hne : ∀ d, d ≠ '-' → d.isDigit = false → c ≠ d := fun _ => ne_of_startsNumber hc
  have hblank : isBlank c = false := by simp [isBlank, hne]
  simp [readValue, hblank, hne]

/-- A member is read, and then the end of the object or the other members. -/
theorem readMembers_member {key : Option String} {value : Json} {w ks u v cs rest after : List Char}
    {fuel : ℕ} (hw : Blank w) (hkey : SpellsString key ks) (hu : Blank u) (hv : Blank v)
    (hvalue : readValue fuel (cs ++ rest) = some (value, rest)) :
    (skip rest = '\x7d' :: after →
      readMembers (fuel + 1) (w ++ '"' :: (ks ++ (u ++ ':' :: (v ++ (cs ++ rest))))) =
        some ([(key, value)], after)) ∧
    ∀ next members, skip rest = ',' :: next → readMembers fuel next = some (members, after) →
      readMembers (fuel + 1) (w ++ '"' :: (ks ++ (u ++ ':' :: (v ++ (cs ++ rest))))) =
        some ((key, value) :: members, after) := by
  have hread : readString (ks ++ (u ++ ':' :: (v ++ (cs ++ rest)))) =
      some (key, u ++ ':' :: (v ++ (cs ++ rest))) :=
    scans_string.complete hkey fun _ _ => trivial
  have hcolon : skip (u ++ ':' :: (v ++ (cs ++ rest))) = ':' :: (v ++ (cs ++ rest)) :=
    skip_append_cons hu rfl _
  constructor
  · intro hend
    simp [readMembers, skip_append hw, isBlank, hread, hcolon, readValue_append hv, hvalue, hend]
  · intro next members hcomma hmembers
    simp [readMembers, skip_append hw, isBlank, hread, hcolon, readValue_append hv, hvalue, hcomma,
      hmembers]

-- A value takes one call and its first item another, while the text of the array is longer than
-- that of the item: twice the length is fuel enough.
mutual

theorem readValue_of_spells {v : Json} {front rest : List Char} {fuel : ℕ} (h : Spells v front)
    (hfuel : 2 * front.length ≤ fuel) (hrest : Before Closes rest) :
    readValue fuel (front ++ rest) = some (v, rest) := by
  have hpos : fuel ≠ 0 := by
    rintro rfl
    obtain ⟨c, cs, rfl, -⟩ := h.exists_cons
    simp at hfuel
  obtain ⟨fuel, rfl⟩ := Nat.exists_eq_succ_of_ne_zero hpos
  cases h with
  | null => simp [readValue, skip, isBlank, after?]
  | boolTrue => simp [readValue, skip, isBlank, after?]
  | boolFalse => simp [readValue, skip, isBlank, after?]
  | number h =>
    have hread := scans_number.complete h (hrest.mono fun _ => Closes.endsNumber)
    obtain ⟨c, cs, rfl, hc⟩ := h.exists_cons
    rw [List.cons_append] at hread ⊢
    rw [readValue_number hc, hread]
    rfl
  | string h =>
    have hread := scans_string.complete h (hrest.mono fun _ _ => trivial)
    simp [readValue, skip, isBlank, hread]
  | @emptyArray w hw =>
    have hend : skip (w ++ ']' :: rest) = ']' :: rest := skip_append_cons hw rfl rest
    simp [readValue, isBlank, hend]
  | array h =>
    have hread : readItems fuel (_ ++ rest) = some (_, rest) :=
      readItems_of_spells h (by simp at hfuel; omega)
    obtain ⟨c, tail, hskip, hc⟩ := h.exists_skip rest
    rw [← readItems_skip, hskip] at hread
    simp [readValue, isBlank, hskip, hc, hread]
  | @emptyObject w hw =>
    have hend : skip (w ++ '\x7d' :: rest) = '\x7d' :: rest := skip_append_cons hw rfl rest
    simp [readValue, isBlank, hend]
  | object h =>
    have hread : readMembers fuel (_ ++ rest) = some (_, rest) :=
      readMembers_of_spells h (by simp at hfuel; omega)
    obtain ⟨tail, hskip⟩ := h.exists_skip rest
    rw [← readMembers_skip, hskip] at hread
    simp [readValue, isBlank, hskip, hread]

theorem readItems_of_spells {items : List Json} {front rest : List Char} {fuel : ℕ}
    (h : SpellsItems items front) (hfuel : 2 * front.length ≤ fuel) :
    readItems fuel (front ++ rest) = some (items, rest) := by
  cases fuel with
  | zero => cases h <;> simp at hfuel
  | succ fuel =>
    cases h with
    | @last item w cs w' hw h hw' =>
      have hitem : readValue fuel (cs ++ (w' ++ ']' :: rest)) = some (item, w' ++ ']' :: rest) :=
        readValue_of_spells h (by simp at hfuel; omega) (hw'.before_closes (by simp [Closes]))
      have hend : skip (w' ++ ']' :: rest) = ']' :: rest := skip_append_cons hw' rfl _
      simp [readItems, readValue_append hw, hitem, hend]
    | @cons item items w cs w' ds hw h hw' h' =>
      have hitem : readValue fuel (cs ++ (w' ++ ',' :: (ds ++ rest))) =
          some (item, w' ++ ',' :: (ds ++ rest)) :=
        readValue_of_spells h (by simp at hfuel; omega) (hw'.before_closes (by simp [Closes]))
      have hitems : readItems fuel (ds ++ rest) = some (items, rest) :=
        readItems_of_spells h' (by simp at hfuel; omega)
      have hcomma : skip (w' ++ ',' :: (ds ++ rest)) = ',' :: (ds ++ rest) :=
        skip_append_cons hw' rfl _
      simp [readItems, readValue_append hw, hitem, hcomma, hitems]

theorem readMembers_of_spells {members : List (Option String × Json)} {front rest : List Char}
    {fuel : ℕ} (h : SpellsMembers members front) (hfuel : 2 * front.length ≤ fuel) :
    readMembers fuel (front ++ rest) = some (members, rest) := by
  cases fuel with
  | zero => cases h <;> simp at hfuel
  | succ fuel =>
    cases h with
    | @last key value w ks u v cs w' hw hkey hu hv h hw' =>
      have hvalue : readValue fuel (cs ++ (w' ++ '\x7d' :: rest)) =
          some (value, w' ++ '\x7d' :: rest) :=
        readValue_of_spells h (by simp at hfuel; omega) (hw'.before_closes (by simp [Closes]))
      have hend : skip (w' ++ '\x7d' :: rest) = '\x7d' :: rest :=
        skip_append_cons hw' rfl _
      simpa using (readMembers_member hw hkey hu hv hvalue).1 hend
    | @cons key value members w ks u v cs w' ds hw hkey hu hv h hw' h' =>
      have hvalue : readValue fuel (cs ++ (w' ++ ',' :: (ds ++ rest))) =
          some (value, w' ++ ',' :: (ds ++ rest)) :=
        readValue_of_spells h (by simp at hfuel; omega) (hw'.before_closes (by simp [Closes]))
      have hmembers : readMembers fuel (ds ++ rest) = some (members, rest) :=
        readMembers_of_spells h' (by simp at hfuel; omega)
      have hcomma : skip (w' ++ ',' :: (ds ++ rest)) = ',' :: (ds ++ rest) :=
        skip_append_cons hw' rfl _
      simpa using (readMembers_member hw hkey hu hv hvalue).2 _ _ hcomma hmembers

end

/-! ### Whole texts -/

/-- **What is read.**  A text is read as a value exactly if it stands for it in the grammar. -/
theorem read_eq_some_iff {text : String} {v : Json} : read text = some v ↔ IsTextOf text v := by
  simp only [read, Option.bind_eq_bind, Option.bind_eq_some_iff, Prod.exists]
  constructor
  · rintro ⟨value, rest, hread, h⟩
    obtain ⟨hend, hvalue⟩ := Option.ite_none_right_eq_some.mp h
    obtain rfl := Option.some.inj hvalue
    obtain ⟨w, front, hw, hfront, htext⟩ := (readsTexts _).value hread
    obtain ⟨w', hw', hrest⟩ := exists_skip rest
    rw [List.isEmpty_iff.mp hend, List.append_nil] at hrest
    exact ⟨w, front, rest, hw, hfront, hrest ▸ hw', htext⟩
  · rintro ⟨w, front, w', hw, hfront, hw', htext⟩
    have hclosed : Before Closes w' := by simpa using hw'.before_closes (before_nil _)
    have hblank : skip w' = [] := List.dropWhile_eq_nil_iff.mpr hw'
    have hfuel : 2 * front.length ≤ 2 * text.toList.length + 2 := by
      simp only [htext, List.length_append]
      omega
    refine ⟨v, w', ?_, by simp [hblank]⟩
    rw [htext, readValue_append hw, ← htext]
    exact readValue_of_spells hfront hfuel hclosed

/-- A text stands for one value at most. -/
theorem IsTextOf.unique {text : String} {v v' : Json} (h : IsTextOf text v)
    (h' : IsTextOf text v') : v = v' :=
  Option.some.inj ((read_eq_some_iff.mpr h).symm.trans (read_eq_some_iff.mpr h'))

end ConicSaddle.Json
