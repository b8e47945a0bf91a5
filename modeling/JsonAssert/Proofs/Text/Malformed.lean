import JsonAssert.Proofs.Text.Utf8

/-! Bytes that are no text. The report of the reader is the only one that says how long the longest
text is that the bytes start with, how far the bytes behind it go along with a character, and what
they end in. -/
namespace JsonAssert.Utf8

/-- The bytes are those of a text. -/
def IsEncoding (bytes : List UInt8) : Prop := ∃ text, bytes = encode text

/-- Some character starts with the bytes. -/
def BeginsCharacter (bytes : List UInt8) : Prop := ∃ c : Char, bytes <+: String.utf8EncodeChar c

/-! Texts and characters by their first byte -/

theorem isEncoding_iff {bytes : List UInt8} : IsEncoding bytes ↔ ∃ text, decode bytes = .ok text :=
  exists_congr fun _ => decode_eq_ok_iff.symm

theorem isEncoding_nil : IsEncoding [] := ⟨[], rfl⟩

/-- A text starts with one of its characters. -/
theorem exists_sequence_of_isEncoding {lead : UInt8} {bytes : List UInt8}
    (h : IsEncoding (lead :: bytes)) : ∃ taken rest, bytes = taken ++ rest ∧
      IsSequence lead taken := by
  obtain ⟨text, htext⟩ := h
  cases text with
  | nil => cases htext
  | cons c text =>
    obtain ⟨lead', taken, hchar, hsequence, -⟩ := exists_sequence c
    rw [encode, List.flatMap_cons, hchar, List.cons_append, List.cons.injEq] at htext
    obtain ⟨rfl, rfl⟩ := htext
    exact ⟨taken, _, rfl, hsequence⟩

/-- One character more or less at the front makes no difference. -/
theorem isEncoding_append {lead : UInt8} {taken : List UInt8} (h : IsSequence lead taken)
    (rest : List UInt8) : IsEncoding (lead :: taken ++ rest) ↔ IsEncoding rest := by
  rw [isEncoding_iff, isEncoding_iff, decode_append (awaited_of_isSequence h)]
  cases decode rest <;> simp

theorem isEncoding_of_isSequence {lead : UInt8} {taken : List UInt8} (h : IsSequence lead taken) :
    IsEncoding (lead :: taken) := by
  have hnil := (isEncoding_append h []).mpr isEncoding_nil
  rwa [List.append_nil] at hnil

theorem beginsCharacter_cons {lead : UInt8} {bytes : List UInt8} :
    BeginsCharacter (lead :: bytes) ↔ ∃ more, IsSequence lead (bytes ++ more) := by
  constructor
  · rintro ⟨c, hc⟩
    obtain ⟨lead', taken, hchar, hsequence, -⟩ := exists_sequence c
    rw [hchar, List.cons_prefix_cons] at hc
    obtain ⟨rfl, more, rfl⟩ := hc
    exact ⟨more, hsequence⟩
  · rintro ⟨more, hsequence⟩
    refine ⟨assemble lead (bytes ++ more), ?_⟩
    rw [encode_assemble hsequence]
    exact List.cons_prefix_cons.mpr ⟨rfl, List.prefix_append bytes more⟩

theorem isSequence_iff_fill {lead : UInt8} {spans : List Span} (h : awaited lead = some spans)
    {taken : List UInt8} : IsSequence lead taken ↔ Fill spans taken := by
  refine ⟨fun hsequence => ?_, isSequence_of_awaited h⟩
  obtain ⟨spans', hspans', hfill⟩ := awaited_of_isSequence hsequence
  rwa [Option.some.inj (h.symm.trans hspans')]

/-! Awaited bytes -/

/-- Every awaited byte can come. -/
theorem contains_low_of_awaited {lead : UInt8} {spans : List Span} (h : awaited lead = some spans) :
    ∀ span ∈ spans, span.contains span.low = true := by
  unfold awaited at h
  split_ifs at h <;> obtain rfl := Option.some.inj h <;> decide

/-- The bytes could be followed by others, so that all that are awaited come. -/
def Awaits (spans : List Span) (bytes : List UInt8) : Prop := ∃ more, Fill spans (bytes ++ more)

theorem awaits_nil {spans : List Span} (h : ∀ span ∈ spans, span.contains span.low = true) :
    Awaits spans [] := by
  refine ⟨spans.map Span.low, ?_⟩
  rw [List.nil_append, Fill, List.forall₂_map_right_iff, List.forall₂_same]
  exact h

theorem awaits_cons {span : Span} {spans : List Span} {b : UInt8} {bytes : List UInt8} :
    Awaits (span :: spans) (b :: bytes) ↔ span.contains b = true ∧ Awaits spans bytes := by
  simp only [Awaits, Fill, List.cons_append, List.forall₂_cons, exists_and_left]

/-- Where bytes are missing or wrong, as many are taken as could be followed by the others, and it
is told whether there were no more. -/
theorem takeAwaited_eq_error {spans : List Span} {bytes : List UInt8} {count : ℕ} {reason : Reason}
    (hspans : ∀ span ∈ spans, span.contains span.low = true)
    (h : takeAwaited spans bytes = .error (count, reason)) :
    count ≤ bytes.length ∧ (∀ n ≤ bytes.length, Awaits spans (bytes.take n) ↔ n ≤ count) ∧
      (reason = .endOfData ∧ count = bytes.length ∨
        reason = .continuationByte ∧ count < bytes.length) := by
  fun_induction takeAwaited spans bytes generalizing count reason with
  | case1 => cases h
  | case2 span spans =>
    cases h
    exact ⟨le_rfl, by simpa using awaits_nil hspans, .inl ⟨rfl, rfl⟩⟩
  | case3 => cases h
  | case4 span spans b bytes hb count' reason' hmore ih =>
    cases h
    obtain ⟨hle, htaken, hreason⟩ := ih (List.forall_mem_of_forall_mem_cons hspans) hmore
    refine ⟨Nat.succ_le_succ hle, ?_, by simpa using hreason⟩
    rintro (_ | n) hn
    · simpa using awaits_nil hspans
    · rw [List.take_succ_cons, awaits_cons, htaken n (by simpa using hn)]
      simp [hb]
  | case5 span spans b bytes hb =>
    cases h
    refine ⟨Nat.zero_le _, ?_, .inr ⟨rfl, Nat.succ_pos _⟩⟩
    rintro (_ | n) hn
    · simpa using awaits_nil hspans
    · rw [List.take_succ_cons, awaits_cons]
      simp [hb]

/-! Reports -/

/-- A report of bytes that are no text: they are one up to its position and no further, a character
could go on as far as the report goes and no further, and the reason is that there are no more
bytes, that the first one starts no character, or else that the next one is no continuation. -/
structure Reports (bytes : List UInt8) (m : Malformed) : Prop where
  valid : IsEncoding (bytes.take m.position)
  longest : ∀ n ≤ bytes.length, IsEncoding (bytes.take n) → n ≤ m.position
  inside : m.position + m.extra < bytes.length
  lead : bytes[m.position]? = some m.lead
  acceptable : BeginsCharacter [m.lead] → ∀ n ≤ bytes.length - m.position,
    BeginsCharacter ((bytes.drop m.position).take n) ↔ n ≤ m.extra + 1
  alone : ¬ BeginsCharacter [m.lead] → m.extra = 0
  endOfData : m.reason = .endOfData ↔ ∃ more, IsEncoding (bytes ++ more)
  startByte : m.reason = .startByte ↔ ¬ BeginsCharacter [m.lead]
  continuationByte : m.reason = .continuationByte ↔
    BeginsCharacter [m.lead] ∧ ¬ ∃ more, IsEncoding (bytes ++ more)

theorem awaited_eq_none_iff {lead : UInt8} : awaited lead = none ↔ ¬ BeginsCharacter [lead] := by
  rw [beginsCharacter_cons]
  cases hawaited : awaited lead with
  | none =>
    refine iff_of_true rfl ?_
    rintro ⟨more, hsequence⟩
    obtain ⟨spans, hspans, -⟩ := awaited_of_isSequence hsequence
    cases hawaited.symm.trans hspans
  | some spans =>
    obtain ⟨more, hmore⟩ := awaits_nil (contains_low_of_awaited hawaited)
    exact iff_of_false (by simp) (not_not.mpr ⟨more, isSequence_of_awaited hawaited hmore⟩)

/-- A first byte that starts no character. -/
theorem reports_startByte {lead : UInt8} (bytes : List UInt8) (h : awaited lead = none) :
    Reports (lead :: bytes) ⟨lead, 0, 0, .startByte⟩ := by
  have hbegins := awaited_eq_none_iff.mp h
  have hnone : ¬ ∃ more, IsEncoding (lead :: bytes ++ more) := by
    rintro ⟨more, hmore⟩
    obtain ⟨taken, -, -, hsequence⟩ := exists_sequence_of_isEncoding hmore
    exact hbegins (beginsCharacter_cons.mpr ⟨taken, hsequence⟩)
  exact {
    valid := isEncoding_nil
    longest := by
      rintro (_ | n) - hn
      · exact le_rfl
      · rw [List.take_succ_cons] at hn
        obtain ⟨taken, -, -, hsequence⟩ := exists_sequence_of_isEncoding hn
        exact absurd (beginsCharacter_cons.mpr ⟨taken, hsequence⟩) hbegins
    inside := Nat.succ_pos _
    lead := rfl
    acceptable := fun hlead => absurd hlead hbegins
    alone := fun _ => rfl
    endOfData := iff_of_false (by simp) hnone
    startByte := iff_of_true rfl hbegins
    continuationByte := iff_of_false (by simp) (not_and_of_not_left _ hbegins) }

/-- A first character that is not complete. -/
theorem reports_awaited {lead : UInt8} {bytes : List UInt8} {spans : List Span} {count : ℕ}
    {reason : Reason} (hawaited : awaited lead = some spans)
    (htake : takeAwaited spans bytes = .error (count, reason)) :
    Reports (lead :: bytes) ⟨lead, 0, count, reason⟩ := by
  obtain ⟨hle, htaken, hreason⟩ := takeAwaited_eq_error (contains_low_of_awaited hawaited) htake
  have hbegins {front : List UInt8} : BeginsCharacter (lead :: front) ↔ Awaits spans front := by
    rw [beginsCharacter_cons]
    exact exists_congr fun more => isSequence_iff_fill hawaited
  have hlead : BeginsCharacter [lead] := hbegins.mpr (awaits_nil (contains_low_of_awaited hawaited))
  -- A character that is complete would have been taken.
  have hshort {taken rest : List UInt8} (hsequence : IsSequence lead taken) :
      bytes ≠ taken ++ rest := by
    intro heq
    have hfill := (isSequence_iff_fill hawaited).mp hsequence
    rw [takeAwaited_eq_ok_iff.mpr ⟨hfill, heq⟩] at htake
    cases htake
  have hmore : (∃ more, IsEncoding (lead :: bytes ++ more)) ↔ count = bytes.length := by
    have hwhole := htaken bytes.length le_rfl
    rw [List.take_length] at hwhole
    constructor
    · rintro ⟨more, hencoding⟩
      obtain ⟨taken, rest, heq, hsequence⟩ := exists_sequence_of_isEncoding hencoding
      rcases List.append_eq_append_iff.mp heq with ⟨left, rfl, -⟩ | ⟨left, hbytes, -⟩
      · have hfill := (isSequence_iff_fill hawaited).mp hsequence
        exact hle.antisymm (hwhole.mp ⟨left, hfill⟩)
      · exact absurd hbytes (hshort hsequence)
    · intro hcount
      obtain ⟨more, hfill⟩ := hwhole.mpr hcount.ge
      exact ⟨more, isEncoding_of_isSequence ((isSequence_iff_fill hawaited).mpr hfill)⟩
  exact {
    valid := isEncoding_nil
    longest := by
      rintro (_ | n) - hn
      · exact le_rfl
      · rw [List.take_succ_cons] at hn
        obtain ⟨taken, rest, heq, hsequence⟩ := exists_sequence_of_isEncoding hn
        have hne : bytes ≠ taken ++ (rest ++ bytes.drop n) := hshort hsequence
        refine absurd ?_ hne
        rw [← List.append_assoc, ← heq, List.take_append_drop]
    inside := by simpa [Nat.lt_succ_iff] using hle
    lead := rfl
    acceptable := by
      rintro - (_ | n) hn
      · exact iff_of_true ⟨assemble lead [], List.nil_prefix⟩ (Nat.zero_le _)
      · simp only [List.drop_zero, List.take_succ_cons, hbegins, Nat.add_le_add_iff_right]
        exact htaken n (by simpa using hn)
    alone := fun hnot => absurd hlead hnot
    endOfData := by
      rw [hmore]
      rcases hreason with ⟨rfl, hcount⟩ | ⟨rfl, hcount⟩
      · exact iff_of_true rfl hcount
      · exact iff_of_false (by simp) hcount.ne
    startByte := by
      rcases hreason with ⟨rfl, -⟩ | ⟨rfl, -⟩ <;> simp [hlead]
    continuationByte := by
      rw [hmore]
      rcases hreason with ⟨rfl, hcount⟩ | ⟨rfl, hcount⟩
      · simp [hcount]
      · simp [hlead, hcount.ne] }

/-- A complete character in front moves the report by its bytes. -/
theorem Reports.shift {lead : UInt8} {taken rest : List UInt8} {m : Malformed}
    (h : Reports rest m) (hsequence : IsSequence lead taken) :
    Reports (lead :: taken ++ rest) (m.shift (taken.length + 1)) := by
  have hposition : m.position + (taken.length + 1) = (lead :: taken).length + m.position :=
    Nat.add_comm _ _
  have hmore : (∃ more, IsEncoding (lead :: taken ++ rest ++ more)) ↔
      ∃ more, IsEncoding (rest ++ more) := by
    refine exists_congr fun more => ?_
    rw [List.append_assoc]
    exact isEncoding_append hsequence _
  exact {
    valid := by
      rw [Malformed.shift, hposition, List.take_length_add_append]
      exact (isEncoding_append hsequence _).mpr h.valid
    longest := by
      intro n hn hvalid
      rw [Malformed.shift, hposition]
      dsimp only
      rcases Nat.lt_or_ge n (lead :: taken).length with hless | hge
      · omega
      · obtain ⟨k, rfl⟩ := Nat.exists_eq_add_of_le hge
        rw [List.take_length_add_append, isEncoding_append hsequence] at hvalid
        rw [List.length_append] at hn
        have hk := h.longest k (by omega) hvalid
        omega
    inside := by
      have hinside := h.inside
      rw [Malformed.shift, hposition, List.length_append]
      dsimp only
      omega
    lead := by
      rw [Malformed.shift, hposition, List.getElem?_append_right (Nat.le_add_right _ _),
        Nat.add_sub_cancel_left]
      exact h.lead
    acceptable := by
      intro hlead n hn
      rw [Malformed.shift, hposition] at hn ⊢
      rw [List.length_append, Nat.add_sub_add_left] at hn
      rw [List.drop_length_add_append]
      exact h.acceptable hlead n hn
    alone := h.alone
    endOfData := h.endOfData.trans hmore.symm
    startByte := h.startByte
    continuationByte := by
      rw [hmore]
      exact h.continuationByte }

theorem reports_of_decode {bytes : List UInt8} {m : Malformed} (h : decode bytes = .error m) :
    Reports bytes m := by
  induction hlength : bytes.length using Nat.strong_induction_on generalizing bytes m with
  | _ length ih =>
    subst hlength
    cases bytes with
    | nil => simp [decode] at h
    | cons lead bytes =>
      rw [decode_cons] at h
      split at h
      · next hawaited =>
        cases h
        exact reports_startByte bytes hawaited
      next spans hawaited =>
      split at h
      · next htake =>
        cases h
        exact reports_awaited hawaited htake
      next taken rest htake =>
      split at h
      · cases h
      next m' hrest =>
      cases h
      obtain ⟨hfill, rfl⟩ := takeAwaited_eq_ok_iff.mp htake
      have hsmaller : rest.length < (lead :: (taken ++ rest)).length := by
        rw [List.length_cons, List.length_append]
        omega
      exact (ih _ hsmaller hrest rfl).shift (isSequence_of_awaited hawaited hfill)

namespace Reports
variable {bytes : List UInt8} {m m' : Malformed}

theorem not_isEncoding (h : Reports bytes m) : ¬ IsEncoding bytes := by
  intro hencoding
  rw [← List.take_length (l := bytes)] at hencoding
  have hlength := h.longest bytes.length le_rfl hencoding
  have hinside := h.inside
  omega

theorem position_le (h : Reports bytes m) (h' : Reports bytes m') : m.position ≤ m'.position := by
  have hinside := h.inside
  exact h'.longest m.position (by omega) h.valid

theorem extra_le (h : Reports bytes m) (h' : Reports bytes m')
    (hposition : m.position = m'.position) (hlead : m.lead = m'.lead) : m.extra ≤ m'.extra := by
  by_cases hbegins : BeginsCharacter [m.lead]
  · have hinside := h.inside
    have htaken := (h.acceptable hbegins (m.extra + 1) (by omega)).mpr le_rfl
    rw [hposition, h'.acceptable (hlead ▸ hbegins) (m.extra + 1) (by omega)] at htaken
    exact Nat.le_of_succ_le_succ htaken
  · rw [h.alone hbegins]
    exact Nat.zero_le _

/-- There is one report at most. -/
theorem unique (h : Reports bytes m) (h' : Reports bytes m') : m = m' := by
  have hposition := (h.position_le h').antisymm (h'.position_le h)
  have hlead : m.lead = m'.lead := by
    have heq := h.lead
    rw [hposition, h'.lead] at heq
    exact (Option.some.inj heq).symm
  have hextra := (h.extra_le h' hposition hlead).antisymm
    (h'.extra_le h hposition.symm hlead.symm)
  have hend : m.reason = .endOfData ↔ m'.reason = .endOfData :=
    h.endOfData.trans h'.endOfData.symm
  have hstart : m.reason = .startByte ↔ m'.reason = .startByte := by
    rw [h.startByte, h'.startByte, hlead]
  have hreason : m.reason = m'.reason := by
    cases hm : m.reason <;> cases hm' : m'.reason <;> simp [hm, hm'] at hend hstart ⊢
  cases m
  cases m'
  simp_all

end Reports

/-- Bytes are no text exactly when they have a report, and this is what the reader gives. -/
theorem decode_eq_error_iff {bytes : List UInt8} {m : Malformed} :
    decode bytes = .error m ↔ Reports bytes m := by
  refine ⟨reports_of_decode, fun h => ?_⟩
  cases hdecode : decode bytes with
  | ok text => exact absurd (isEncoding_iff.mpr ⟨text, hdecode⟩) h.not_isEncoding
  | error m' => rw [(reports_of_decode hdecode).unique h]

end JsonAssert.Utf8
