import ConicSaddle.Proofs.Cone.Packing

/-!
# Where packing has no answer

Packing and unpacking count in machine words before they compare sizes.  A count that does not fit
is a fault, also where the sizes disagree anyway and an error would be the answer.

* `OnlyOverflows`: computations whose only fault is the overflow of a count;
* `numelPacked_eq_ok_iff`: when the packed size can be counted;
* `PackCounts`, `UnpackCounts`: the counts of a call fit in machine words;
* `Answered`: a call succeeds exactly if the sizes agree, and otherwise changes nothing;
* `packing_answers_iff`: the calls are answered exactly if their counts fit;
* `pack_at_last_offset`: a call without an answer.
-/

namespace ConicSaddle

open ConeDims (total)

variable {β γ : Type}

/-! ### Overflows -/

/-- The overflow of a count is the only fault of the computation. -/
def OnlyOverflows (c : Checked β) : Prop := ∀ fault, c = .error fault → fault = .overflow

theorem onlyOverflows_ok (a : β) : OnlyOverflows (.ok a) := nofun

theorem onlyOverflows_fit (n : ℕ) : OnlyOverflows (Word.fit n) := by
  intro fault h
  by_cases hn : n < Word.limit
  · rw [Word.fit_of_lt hn] at h
    cases h
  · rw [Word.fit_of_le (Nat.not_lt.mp hn)] at h
    exact (Except.error.inj h).symm

theorem OnlyOverflows.bind {c : Checked β} {f : β → Checked γ} (hc : OnlyOverflows c)
    (hf : ∀ a, OnlyOverflows (f a)) : OnlyOverflows (c >>= f) := by
  cases c with
  | ok a => exact hf a
  | error fault =>
    intro fault' h
    cases h
    exact hc fault rfl

/-- What overflows behind every result of a count overflows as a whole. -/
theorem OnlyOverflows.bind_eq {c : Checked β} {f : β → Checked γ} (hc : OnlyOverflows c)
    (hf : ∀ a, c = .ok a → f a = .error .overflow) : c >>= f = .error .overflow := by
  cases c with
  | ok a => exact hf a rfl
  | error fault =>
    rw [hc fault rfl]
    rfl

theorem OnlyOverflows.sum {count : ConeBlock → Checked ℕ}
    (hcount : ∀ block, OnlyOverflows (count block)) (blocks : List ConeBlock) (start : ℕ) :
    OnlyOverflows (blocks.foldlM (fun sum block => do
      let n ← count block
      Word.add sum n) start) := by
  induction blocks generalizing start with
  | nil => exact onlyOverflows_ok start
  | cons block blocks ih =>
    rw [List.foldlM_cons]
    exact ((hcount block).bind fun n => onlyOverflows_fit (start + n)).bind ih

theorem ConeDims.onlyOverflows_numelUnpacked (dims : ConeDims) :
    OnlyOverflows dims.numelUnpacked := by
  refine OnlyOverflows.sum ?_ dims.blocks 0
  intro block
  cases block with
  | nonnegative l => exact onlyOverflows_ok l
  | secondOrder q => exact onlyOverflows_ok q
  | semidefinite k => exact onlyOverflows_fit (k * k)

theorem ConeDims.onlyOverflows_numelPacked (dims : ConeDims) : OnlyOverflows dims.numelPacked := by
  refine OnlyOverflows.sum ?_ dims.blocks 0
  intro block
  cases block with
  | nonnegative l => exact onlyOverflows_ok l
  | secondOrder q => exact onlyOverflows_ok q
  | semidefinite k =>
    exact (onlyOverflows_fit (k + 1)).bind fun next =>
      (onlyOverflows_fit (k * next)).bind fun double => onlyOverflows_ok (double / 2)

/-! ### When the packed size can be counted -/

/-- The double of the packed size of a semidefinite block fits in a word. -/
def ConeBlock.Packable : ConeBlock → Prop
  | semidefinite k => k * (k + 1) < Word.limit
  | _ => True

theorem ConeBlock.numelPacked_eq_ok_iff {block : ConeBlock} {n : ℕ} :
    block.numelPacked = .ok n ↔ block.Packable ∧ n = block.packedSize := by
  cases block with
  | nonnegative l => exact ⟨fun h => ⟨trivial, (Except.ok.inj h).symm⟩, fun h => h.2 ▸ rfl⟩
  | secondOrder q => exact ⟨fun h => ⟨trivial, (Except.ok.inj h).symm⟩, fun h => h.2 ▸ rfl⟩
  | semidefinite k =>
    constructor
    · intro h
      refine ⟨?_, numelPacked_eq_ok h⟩
      simp only [numelPacked, triangularNumber, Checked.bind_eq_ok] at h
      obtain ⟨next, hnext, double, hdouble, -⟩ := h
      obtain ⟨rfl, -⟩ := Word.add_eq_ok hnext
      exact (Word.fit_eq_ok_iff.mp hdouble).1
    · rintro ⟨hdouble, rfl⟩
      have hdouble : k * (k + 1) < Word.limit := hdouble
      -- the successor of the order is no larger than the product, unless the order is zero
      have hnext : k + 1 < Word.limit := by
        rcases Nat.eq_zero_or_pos k with rfl | hk
        · decide
        · exact Nat.lt_of_le_of_lt (Nat.le_mul_of_pos_left (k + 1) hk) hdouble
      simp only [numelPacked, triangularNumber, Word.add_of_lt hnext, Word.mul,
        Word.fit_of_lt hdouble, Checked.ok_bind]
      rfl

namespace ConeDims

/-- The packed size is counted exactly if the double of every triangle and the sum fit. -/
theorem numelPacked_eq_ok_iff {dims : ConeDims} {n : ℕ} :
    dims.numelPacked = .ok n ↔ (∀ k ∈ dims.s, k * (k + 1) < Word.limit) ∧
      dims.packedSize < Word.limit ∧ n = dims.packedSize := by
  have hblocks : (∀ block ∈ dims.blocks, block.Packable) ↔
      ∀ k ∈ dims.s, k * (k + 1) < Word.limit := by
    simp [blocks, ConeBlock.Packable, or_imp, forall_and]
  have hsum := sum_eq_ok_iff @ConeBlock.numelPacked_eq_ok_iff dims.blocks (n := n)
    (show 0 < Word.limit by decide)
  rwa [hblocks, Nat.zero_add] at hsum

end ConeDims

/-! ### The calls -/

/-- The counts that packing takes fit in machine words, from `n` entries. -/
def PackCounts (dims : ConeDims) (mnl offset n : ℕ) : Prop :=
  mnl + dims.unpackedSize < Word.limit ∧
    (n = mnl + dims.unpackedSize → offset + (mnl + dims.packedSize) < Word.limit)

/-- The counts that unpacking takes fit in machine words, from `n` entries. -/
def UnpackCounts (dims : ConeDims) (mnl offset n : ℕ) : Prop :=
  (∀ k ∈ dims.s, k * (k + 1) < Word.limit) ∧ offset + (mnl + dims.packedSize) < Word.limit ∧
    (offset + (mnl + dims.packedSize) ≤ n → mnl + dims.unpackedSize < Word.limit)

variable {α : Type} {d : ℕ}

/-- The call succeeds exactly if the sizes agree, and otherwise there is an error and the vector is
as before. -/
def Answered (call : Checked (Reply DimensionError Unit (Vector α d))) (dst : Vector α d)
    (agree : Prop) : Prop :=
  ∃ reply, call = .ok reply ∧ (reply.answer = .ok () ↔ agree) ∧ (¬agree → reply.state = dst)

variable {dst : Vector α d} {agree : Prop}

theorem answered_of_ok {dst' : Vector α d} (h : agree) : Answered (.ok ⟨.ok (), dst'⟩) dst agree :=
  ⟨_, rfl, ⟨fun _ => h, fun _ => rfl⟩, fun h' => absurd h h'⟩

theorem answered_of_error {e : DimensionError} (h : ¬agree) :
    Answered (.ok ⟨.error e, dst⟩) dst agree :=
  ⟨_, rfl, ⟨nofun, fun h' => absurd h' h⟩, fun _ => rfl⟩

/-- If a call is answered under a condition and overflows without it, then each happens exactly
then. -/
theorem answered_iff {call : Checked (Reply DimensionError Unit (Vector α d))} {fits : Prop}
    (hfits : fits → Answered call dst agree) (hnot : ¬fits → call = .error .overflow) :
    (Answered call dst agree ↔ fits) ∧ (call = .error .overflow ↔ ¬fits) := by
  have hne : Answered call dst agree → call ≠ .error .overflow := by
    rintro ⟨reply, hreply, -⟩ herror
    cases hreply.symm.trans herror
  refine ⟨⟨fun h => ?_, hfits⟩, fun h h' => hne (hfits h') h, hnot⟩
  by_contra h'
  exact hne h (hnot h')

variable [Scalar α] {dims : ConeDims} {mnl offset : ℕ}

theorem PackCounts.answered {src : Array α} (h : PackCounts dims mnl offset src.size) :
    Answered (pack src dst dims mnl offset) dst
      (src.size = mnl + dims.unpackedSize ∧ offset + (mnl + dims.packedSize) ≤ d) := by
  obtain ⟨hlimit, hstop⟩ := h
  have hunpacked : dims.unpackedSize < Word.limit := by omega
  have hpacked := dims.packedSize_le
  by_cases hsize : src.size = mnl + dims.unpackedSize
  · by_cases hroom : offset + (mnl + dims.packedSize) ≤ d
    · obtain ⟨dst', hpack, -⟩ :=
        PackingFits.packed ⟨hsize, hsize ▸ hlimit, hroom, hstop hsize⟩ dst
      rw [hpack]
      exact answered_of_ok ⟨hsize, hroom⟩
    · have hpack : pack src dst dims mnl offset =
          .ok ⟨.error (.offset "dst" d offset (mnl + dims.packedSize)), dst⟩ := by
        simp only [pack, ConeDims.numelPacked_of_lt hunpacked,
          ConeDims.numelUnpacked_of_lt hunpacked, Checked.ok_bind, Word.add_of_lt hlimit,
          Word.add_of_lt (show mnl + dims.packedSize < Word.limit by omega), checkLength,
          if_pos hsize, Word.add_of_lt (hstop hsize), if_neg hroom, Checked.pure_eq_ok]
      rw [hpack]
      exact answered_of_error fun h => hroom h.2
  · have hpack : pack src dst dims mnl offset =
        .ok ⟨.error (.vectorLength "src" (mnl + dims.unpackedSize) src.size), dst⟩ := by
      simp only [pack, ConeDims.numelPacked_of_lt hunpacked,
        ConeDims.numelUnpacked_of_lt hunpacked, Checked.ok_bind, Word.add_of_lt hlimit,
        Word.add_of_lt (show mnl + dims.packedSize < Word.limit by omega), checkLength,
        if_neg hsize, Checked.pure_eq_ok]
    rw [hpack]
    exact answered_of_error fun h => hsize h.1

theorem pack_overflows {src : Array α} (h : ¬PackCounts dims mnl offset src.size) :
    pack src dst dims mnl offset = .error .overflow := by
  unfold pack
  refine dims.onlyOverflows_numelPacked.bind_eq fun p hp =>
    (onlyOverflows_fit _).bind_eq fun needed hneeded =>
    dims.onlyOverflows_numelUnpacked.bind_eq fun u hu =>
    (onlyOverflows_fit _).bind_eq fun expected hexpected => ?_
  obtain ⟨rfl, -⟩ := Word.add_eq_ok hneeded
  obtain ⟨rfl, hlimit⟩ := Word.add_eq_ok hexpected
  rw [ConeDims.numelUnpacked_eq_ok hu] at hlimit ⊢
  rw [ConeDims.numelPacked_eq_ok hp]
  -- the sizes can be compared, so that it is the end of the packed part that does not fit
  obtain ⟨hsize, hstop⟩ : src.size = mnl + dims.unpackedSize ∧
      ¬offset + (mnl + dims.packedSize) < Word.limit := by
    by_contra hnot
    exact h ⟨hlimit, fun hsize => by_contra fun hstop => hnot ⟨hsize, hstop⟩⟩
  rw [checkLength, if_pos hsize]
  simp only [Word.add, Word.fit_of_le (Nat.not_lt.mp hstop)]
  rfl

theorem UnpackCounts.answered {src : Array α} (h : UnpackCounts dims mnl offset src.size) :
    Answered (unpack src dst dims mnl offset) dst
      (offset + (mnl + dims.packedSize) ≤ src.size ∧ d = mnl + dims.unpackedSize) := by
  obtain ⟨hsquares, hstop, hlimit⟩ := h
  have hpacked : dims.numelPacked = .ok dims.packedSize :=
    ConeDims.numelPacked_eq_ok_iff.mpr ⟨hsquares, by omega, rfl⟩
  have hneeded : mnl + dims.packedSize < Word.limit := by omega
  by_cases hroom : offset + (mnl + dims.packedSize) ≤ src.size
  · have hlimit := hlimit hroom
    have hunpacked := ConeDims.numelUnpacked_of_lt (show dims.unpackedSize < Word.limit by omega)
    by_cases hsize : d = mnl + dims.unpackedSize
    · obtain ⟨dst', hunpack, -⟩ := PackingFits.unpacked ⟨hsize, hsize ▸ hlimit, hroom, hstop⟩ dst
      rw [hunpack]
      exact answered_of_ok ⟨hroom, hsize⟩
    · have hunpack : unpack src dst dims mnl offset =
          .ok ⟨.error (.vectorLength "dst" (mnl + dims.unpackedSize) d), dst⟩ := by
        simp only [unpack, hpacked, Checked.ok_bind, Word.add_of_lt hneeded, Word.add_of_lt hstop,
          if_pos hroom, hunpacked, Word.add_of_lt hlimit, checkLength, if_neg hsize,
          Checked.pure_eq_ok]
      rw [hunpack]
      exact answered_of_error fun h => hsize h.2
  · have hunpack : unpack src dst dims mnl offset =
        .ok ⟨.error (.offset "src" src.size offset (mnl + dims.packedSize)), dst⟩ := by
      simp only [unpack, hpacked, Checked.ok_bind, Word.add_of_lt hneeded, Word.add_of_lt hstop,
        if_neg hroom, Checked.pure_eq_ok]
    rw [hunpack]
    exact answered_of_error fun h => hroom h.1

theorem unpack_overflows {src : Array α} (h : ¬UnpackCounts dims mnl offset src.size) :
    unpack src dst dims mnl offset = .error .overflow := by
  unfold unpack
  refine dims.onlyOverflows_numelPacked.bind_eq fun p hp =>
    (onlyOverflows_fit _).bind_eq fun needed hneeded =>
    (onlyOverflows_fit _).bind_eq fun stop hcount => ?_
  obtain ⟨hsquares, -, rfl⟩ := ConeDims.numelPacked_eq_ok_iff.mp hp
  obtain ⟨rfl, -⟩ := Word.add_eq_ok hneeded
  obtain ⟨rfl, hstop⟩ := Word.add_eq_ok hcount
  -- the packed part lies inside the vector, so that it is the unpacked size that does not fit
  obtain ⟨hroom, hlimit⟩ : offset + (mnl + dims.packedSize) ≤ src.size ∧
      ¬mnl + dims.unpackedSize < Word.limit := by
    by_contra hnot
    exact h ⟨hsquares, hstop, fun hroom => by_contra fun hlimit => hnot ⟨hroom, hlimit⟩⟩
  rw [if_pos hroom]
  refine dims.onlyOverflows_numelUnpacked.bind_eq fun u hu => ?_
  rw [ConeDims.numelUnpacked_eq_ok hu]
  simp only [Word.add, Word.fit_of_le (Nat.not_lt.mp hlimit)]
  rfl

/-- **Packing and unpacking are answered exactly if their counts fit.**  Then packing succeeds
exactly if the source has the unpacked size and the target has room for the packed layout at the
offset, unpacking exactly if the source holds a packed layout at the offset and the target has the
unpacked size, and otherwise there is an error and the target is as before.  If one of the counts
does not fit in a machine word, then the call overflows. -/
theorem packing_answers_iff (src : Array α) (dst : Vector α d) (dims : ConeDims)
    (mnl offset : ℕ) :
    ((Answered (pack src dst dims mnl offset) dst
        (src.size = mnl + dims.unpackedSize ∧ offset + (mnl + dims.packedSize) ≤ d) ↔
      PackCounts dims mnl offset src.size) ∧
      (pack src dst dims mnl offset = .error .overflow ↔
        ¬PackCounts dims mnl offset src.size)) ∧
    (Answered (unpack src dst dims mnl offset) dst
        (offset + (mnl + dims.packedSize) ≤ src.size ∧ d = mnl + dims.unpackedSize) ↔
      UnpackCounts dims mnl offset src.size) ∧
      (unpack src dst dims mnl offset = .error .overflow ↔
        ¬UnpackCounts dims mnl offset src.size) :=
  ⟨answered_iff PackCounts.answered pack_overflows,
    answered_iff UnpackCounts.answered unpack_overflows⟩

/-! ### An offset that is too large to be refused -/

/-- An orthant of two dimensions and the positive semidefinite matrices of order two. -/
def oneSquare : ConeDims := { ConeDims.empty with l := 2, s := [2] }

/-- At the last offset of a machine word there is no room in a vector of six entries.  In place of
an error the sum of offset and length overflows. -/
theorem pack_at_last_offset :
    Word.limit - 1 < Word.limit ∧
    pack (Array.replicate 6 (1 : Float)) (Vector.replicate 6 (0 : Float)) oneSquare 0
      (Word.limit - 1) = .error .overflow ∧
    ¬Answered (pack (Array.replicate 6 (1 : Float)) (Vector.replicate 6 (0 : Float)) oneSquare 0
      (Word.limit - 1)) (Vector.replicate 6 (0 : Float))
      ((Array.replicate 6 (1 : Float)).size = 0 + oneSquare.unpackedSize ∧
        Word.limit - 1 + (0 + oneSquare.packedSize) ≤ 6) := by
  have hpack : pack (Array.replicate 6 (1 : Float)) (Vector.replicate 6 (0 : Float)) oneSquare 0
      (Word.limit - 1) = .error .overflow := by
    apply pack_overflows
    rintro ⟨-, hstop⟩
    exact absurd (hstop rfl) (by decide)
  refine ⟨by decide, hpack, ?_⟩
  rintro ⟨reply, hreply, -⟩
  cases hreply.symm.trans hpack

end ConicSaddle
