import JsonAssert.Proofs.Data.Json

/-! Dictionaries from lists with repeated keys: every key stands where it comes first, and has the
value that it comes with last. -/
namespace JsonAssert.Dict
variable {α : Type}

/-- The first entry for one key stands before that for another. -/
def ComesBefore (entries : List (Key × α)) (k l : Key) : Prop :=
  (entries.map (·.1)).idxOf k < (entries.map (·.1)).idxOf l

/-- The dictionary that a list of entries stands for. -/
structure IsMerged (entries : List (Key × α)) (d : Dict α) : Prop where
  keys : ∀ k, k ∈ d.map (·.1) ↔ k ∈ entries.map (·.1)
  distinct : (d.map (·.1)).Nodup
  order : (d.map (·.1)).Pairwise (ComesBefore entries)
  last : ∀ e ∈ d, ∃ before after, entries = before ++ e :: after ∧ e.1 ∉ after.map (·.1)

/-! No other dictionary -/

theorem eq_of_last_of_append {before after after' : List (Key × α)} {e e' : Key × α}
    (hkey : e.1 = e'.1) (hlast : e.1 ∉ after.map (·.1))
    (h : e :: after = before ++ e' :: after') : e = e' := by
  cases before with
  | nil => exact (List.cons.inj h).1
  | cons x before =>
    obtain ⟨-, rfl⟩ := List.cons.inj h
    exact absurd (by simp [hkey]) hlast

/-- The last entry for a key is one entry. -/
theorem eq_of_last {before after before' after' : List (Key × α)} {e e' : Key × α}
    (hkey : e.1 = e'.1) (hlast : e.1 ∉ after.map (·.1)) (hlast' : e'.1 ∉ after'.map (·.1))
    (h : before ++ e :: after = before' ++ e' :: after') : e = e' := by
  rcases List.append_eq_append_iff.mp h with ⟨more, -, hmore⟩ | ⟨more, -, hmore⟩
  · exact eq_of_last_of_append hkey hlast hmore
  · exact (eq_of_last_of_append hkey.symm hlast' hmore).symm

namespace IsMerged
variable {entries : List (Key × α)} {d d' : Dict α}

theorem subset (h : IsMerged entries d) (h' : IsMerged entries d') : d ⊆ d' := by
  intro e he
  have hkey : e.1 ∈ d'.map (·.1) :=
    (h'.keys e.1).mpr ((h.keys e.1).mp (List.mem_map_of_mem he))
  obtain ⟨e', he', hsame⟩ := List.mem_map.mp hkey
  obtain ⟨before, after, hentries, hlast⟩ := h.last e he
  obtain ⟨before', after', hentries', hlast'⟩ := h'.last e' he'
  obtain rfl := eq_of_last hsame.symm hlast hlast' (hentries.symm.trans hentries')
  exact he'

theorem eq (h : IsMerged entries d) (h' : IsMerged entries d') : d = d' := by
  have hperm : d.Perm d' :=
    (List.perm_ext_iff_of_nodup h.distinct.of_map h'.distinct.of_map).mpr
      fun e => ⟨fun he => h.subset h' he, fun he => h'.subset h he⟩
  have horder : d.Pairwise fun e e' => ComesBefore entries e.1 e'.1 := List.pairwise_map.mp h.order
  have horder' : d'.Pairwise fun e e' => ComesBefore entries e.1 e'.1 :=
    List.pairwise_map.mp h'.order
  exact hperm.eq_of_pairwise (fun _ _ _ _ hlt hgt => absurd (Nat.lt_trans hlt hgt) (lt_irrefl _))
    horder horder'

end IsMerged

/-! Inserting one entry after the other -/

theorem same_iff_of_text {d : Dict α} (htext : d.HasTextKeys) {e : Key × α} (he : e ∈ d)
    (s : String) : e.1.same (.text s) = true ↔ e.1 = .text s := by
  obtain ⟨t, ht⟩ := htext e he
  rw [ht, Key.same_text]
  simp

theorem map_fst_insert_text {d : Dict α} (htext : d.HasTextKeys) (s : String) (v : α) :
    (d.insert (.text s) v).map (·.1) =
      if .text s ∈ d.map (·.1) then d.map (·.1) else d.map (·.1) ++ [.text s] := by
  induction d with
  | nil => rfl
  | cons e d ih =>
    have hd := ih fun x hx => htext x (List.mem_cons_of_mem e hx)
    have hsame := same_iff_of_text htext List.mem_cons_self s
    by_cases hkey : e.1 = .text s
    · rw [insert, if_pos (hsame.mpr hkey), if_pos (by simp [hkey])]
      rfl
    · rw [insert, if_neg (hkey ∘ hsame.mp), List.map_cons, hd]
      by_cases hmem : .text s ∈ d.map (·.1)
      · rw [if_pos hmem, if_pos (by simp [hmem]), List.map_cons]
      · rw [if_neg hmem, if_neg (by simpa [hmem] using Ne.symm hkey)]
        rfl

theorem mem_insert_text {d : Dict α} (htext : d.HasTextKeys) (hdistinct : (d.map (·.1)).Nodup)
    {s : String} {v : α} {e : Key × α} (he : e ∈ d.insert (.text s) v) :
    e = (.text s, v) ∨ e ∈ d ∧ e.1 ≠ .text s := by
  induction d with
  | nil => exact .inl (List.mem_singleton.mp he)
  | cons x d ih =>
    obtain ⟨hx, hd⟩ := List.nodup_cons.mp hdistinct
    have hsame := same_iff_of_text htext List.mem_cons_self s
    rw [insert] at he
    by_cases hkey : x.1 = .text s
    · rw [if_pos (hsame.mpr hkey), hkey] at he
      rcases List.mem_cons.mp he with rfl | hmore
      · exact .inl rfl
      · refine .inr ⟨List.mem_cons_of_mem x hmore, fun h => hx ?_⟩
        show x.1 ∈ d.map (·.1)
        rw [hkey, ← h]
        exact List.mem_map_of_mem hmore
    · rw [if_neg (hkey ∘ hsame.mp)] at he
      rcases List.mem_cons.mp he with rfl | hmore
      · exact .inr ⟨List.mem_cons_self, hkey⟩
      · rcases ih (fun y hy => htext y (List.mem_cons_of_mem x hy)) hd hmore with hnew | ⟨hold, hne⟩
        · exact .inl hnew
        · exact .inr ⟨List.mem_cons_of_mem x hold, hne⟩

namespace IsMerged
variable {entries : List (Key × α)} {d : Dict α}

theorem hasTextKeys (h : IsMerged entries d) (htext : HasTextKeys entries) : d.HasTextKeys := by
  intro e he
  obtain ⟨e', he', hkey⟩ := List.mem_map.mp ((h.keys e.1).mp (List.mem_map_of_mem he))
  obtain ⟨s, hs⟩ := htext e' he'
  exact ⟨s, hkey.symm.trans hs⟩

/-- Where a key comes first does not depend on what comes after. -/
theorem idxOf_concat (h : IsMerged entries d) {k : Key} (hk : k ∈ d.map (·.1)) (e : Key × α) :
    ((entries ++ [e]).map (·.1)).idxOf k = (entries.map (·.1)).idxOf k := by
  rw [List.map_append]
  exact List.idxOf_append_of_mem ((h.keys k).mp hk)

theorem insert_last (h : IsMerged entries d) (htext : HasTextKeys entries) {s : String} {v : α}
    {e : Key × α} (he : e ∈ d.insert (.text s) v) :
    ∃ before after, entries ++ [(.text s, v)] = before ++ e :: after ∧
      e.1 ∉ after.map (·.1) := by
  rcases mem_insert_text (h.hasTextKeys htext) h.distinct he with rfl | ⟨hold, hne⟩
  · exact ⟨entries, [], rfl, List.not_mem_nil⟩
  · obtain ⟨before, after, rfl, hlast⟩ := h.last e hold
    refine ⟨before, after ++ [(.text s, v)], by simp, ?_⟩
    rw [List.map_append, List.mem_append]
    exact not_or.mpr ⟨hlast, by simpa using hne⟩

theorem comesBefore_concat (h : IsMerged entries d) {k : Key} (hk : k ∈ d.map (·.1))
    {e : Key × α} (he : e.1 ∉ d.map (·.1)) : ComesBefore (entries ++ [e]) k e.1 := by
  have hold := (h.keys k).mp hk
  have hnew : e.1 ∉ entries.map (·.1) := fun hmem => he ((h.keys e.1).mpr hmem)
  rw [ComesBefore, h.idxOf_concat hk, List.map_append, List.idxOf_append_of_notMem hnew]
  exact (List.idxOf_lt_length_iff.mpr hold).trans_le (Nat.le_add_right _ _)

theorem insert_order (h : IsMerged entries d) (htext : HasTextKeys entries) (s : String) (v : α) :
    ((d.insert (.text s) v).map (·.1)).Pairwise (ComesBefore (entries ++ [(.text s, v)])) := by
  have hkept : (d.map (·.1)).Pairwise (ComesBefore (entries ++ [(.text s, v)])) := by
    apply h.order.imp_of_mem
    intro k l hk hl hlt
    rwa [ComesBefore, h.idxOf_concat hk, h.idxOf_concat hl]
  rw [map_fst_insert_text (h.hasTextKeys htext)]
  -- A key that is there keeps its place, and a new one comes first behind all others.
  split_ifs with hmem
  · exact hkept
  · refine List.pairwise_append.mpr ⟨hkept, List.pairwise_singleton _ _, ?_⟩
    intro k hk l hl
    rw [List.mem_singleton.mp hl]
    exact h.comesBefore_concat hk hmem

/-- One more entry overwrites the value of its key, or comes last with a new one. -/
theorem insert (h : IsMerged entries d) (htext : HasTextKeys entries) (s : String) (v : α) :
    IsMerged (entries ++ [(.text s, v)]) (d.insert (.text s) v) where
  keys k := by
    rw [map_fst_insert_text (h.hasTextKeys htext), List.map_append, List.mem_append, ← h.keys]
    split_ifs with hmem
    · simp only [List.map_singleton, List.mem_singleton]
      exact (or_iff_left_of_imp fun hk => hk ▸ hmem).symm
    · exact List.mem_append
  distinct := nodup_of_distinct ((distinct_of_nodup (h.hasTextKeys htext) h.distinct).insert _ _)
  order := h.insert_order htext s v
  last _ he := h.insert_last htext he

end IsMerged

/-- The dictionary that is built entry by entry is the one that the entries stand for. -/
theorem isMerged_ofList {entries : List (Key × α)} (htext : HasTextKeys entries) :
    IsMerged entries (ofList entries) := by
  induction entries using List.reverseRecOn with
  | nil => exact ⟨fun _ => Iff.rfl, .nil, .nil, List.forall_mem_nil _⟩
  | append_singleton entries e ih =>
    have hentries : HasTextKeys entries := fun x hx => htext x (List.mem_append_left _ hx)
    obtain ⟨s, hs⟩ := htext e (List.mem_append_right _ List.mem_cons_self)
    obtain ⟨k, v⟩ := e
    obtain rfl : k = .text s := hs
    rw [ofList, List.foldl_append]
    exact (ih hentries).insert hentries s v

end JsonAssert.Dict
