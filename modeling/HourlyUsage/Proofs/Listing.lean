import HourlyUsage.Proofs.PathLengths
import HourlyUsage.Proofs.Tiling
import Mathlib.Data.List.Sort

/-!
# Listings by windows

What a file store lists is the part of its keys within a range, in byte order,
and the tree alone decides whether it can list at all.  Ranges that meet give
listings that follow each other, so the windows of a schedule together list what
one query over the whole range lists.
-/

namespace HourlyUsage

open Text

/-! ## Byte order of keys -/

theorem keyLe_iff {a b : String} : keyLe a b = true ↔ utf8 a ≤ utf8 b := by
  simp [keyLe, byteLt]

theorem keyLe_trans (a b c : String) (hab : keyLe a b = true) (hbc : keyLe b c = true) :
    keyLe a c = true := by
  rw [keyLe_iff] at *
  exact List.le_trans hab hbc

theorem keyLe_total (a b : String) : (keyLe a b || keyLe b a) = true := by
  rw [Bool.or_eq_true, keyLe_iff, keyLe_iff]
  exact List.le_total _ _

theorem keyLe_antisymm {a b : String} (hab : keyLe a b = true) (hba : keyLe b a = true) :
    a = b := by
  rw [keyLe_iff] at hab hba
  exact utf8_inj (List.le_antisymm hab hba)

theorem Query.contains_iff_keyLe {q : Query} {key : String} :
    q.contains key = true ↔ keyLe q.startOffset key = true ∧ ¬ keyLe q.endOffset key = true := by
  simp [Query.contains, keyLe]

/-! ## Ranges that meet -/

namespace Query

theorem mem_select {q : Query} {keys : List String} {key : String} :
    key ∈ q.select keys ↔ key ∈ keys ∧ q.contains key = true := by
  rw [select, List.mem_mergeSort, List.mem_filter]

theorem pairwise_select (q : Query) (keys : List String) :
    (q.select keys).Pairwise fun a b ↦ keyLe a b = true :=
  List.pairwise_mergeSort keyLe_trans keyLe_total _

/-- What is selected is known by its keys and their order. -/
theorem select_eq_of_perm {q : Query} {keys sorted : List String}
    (h : (keys.filter q.contains).Perm sorted)
    (hsorted : sorted.Pairwise fun a b ↦ keyLe a b = true) : q.select keys = sorted :=
  ((List.mergeSort_perm _ _).trans h).eq_of_pairwise
    (fun _ _ _ _ hab hba ↦ keyLe_antisymm hab hba) (pairwise_select _ _) hsorted

theorem select_of_perm {q : Query} {keys more : List String}
    (h : (keys.filter q.contains).Perm (more.filter q.contains)) :
    q.select keys = q.select more :=
  select_eq_of_perm (h.trans (List.mergeSort_perm _ _).symm) (pairwise_select q more)

theorem not_contains_of_same (a key : String) : (Query.mk a a).contains key = false := by
  rw [Bool.eq_false_iff, Ne, contains_iff_keyLe]
  rintro ⟨h, hn⟩
  exact hn h

theorem select_of_same (a : String) (keys : List String) : (Query.mk a a).select keys = [] := by
  apply List.eq_nil_iff_forall_not_mem.2
  intro key hkey
  rw [mem_select, not_contains_of_same] at hkey
  cases hkey.2

/-- A range holds what its two parts hold, and no key is in both. -/
theorem contains_split {a m b : String} (ham : keyLe a m = true) (hmb : keyLe m b = true)
    (key : String) :
    ((Query.mk a b).contains key = true ↔
      (Query.mk a m).contains key = true ∨ (Query.mk m b).contains key = true) ∧
    ¬ ((Query.mk a m).contains key = true ∧ (Query.mk m b).contains key = true) := by
  simp only [contains_iff_keyLe]
  constructor
  · constructor
    · rintro ⟨hak, hbk⟩
      by_cases hmk : keyLe m key = true
      · exact .inr ⟨hmk, hbk⟩
      · exact .inl ⟨hak, hmk⟩
    · rintro (⟨hak, hmk⟩ | ⟨hmk, hbk⟩)
      · exact ⟨hak, fun hbk ↦ hmk (keyLe_trans _ _ _ hmb hbk)⟩
      · exact ⟨keyLe_trans _ _ _ ham hmk, hbk⟩
  · rintro ⟨⟨-, hn⟩, hmk, -⟩
    exact hn hmk

theorem perm_filter_split {a m b : String} (ham : keyLe a m = true) (hmb : keyLe m b = true)
    (keys : List String) :
    (keys.filter (Query.mk a b).contains).Perm
      (keys.filter (Query.mk a m).contains ++ keys.filter (Query.mk m b).contains) := by
  induction keys with
  | nil => simp
  | cons key keys ih =>
      obtain ⟨hiff, hnot⟩ := contains_split ham hmb key
      by_cases hl : (Query.mk a m).contains key = true
      · have hw : (Query.mk a b).contains key = true := hiff.2 (.inl hl)
        have hr : ¬ (Query.mk m b).contains key = true := fun hr ↦ hnot ⟨hl, hr⟩
        rw [List.filter_cons_of_pos hw, List.filter_cons_of_pos hl, List.filter_cons_of_neg hr]
        exact ih.cons key
      · by_cases hr : (Query.mk m b).contains key = true
        · have hw : (Query.mk a b).contains key = true := hiff.2 (.inr hr)
          rw [List.filter_cons_of_pos hw, List.filter_cons_of_neg hl, List.filter_cons_of_pos hr]
          exact (ih.cons key).trans List.perm_middle.symm
        · have hw : ¬ (Query.mk a b).contains key = true := fun hw ↦ (hiff.1 hw).elim hl hr
          rw [List.filter_cons_of_neg hw, List.filter_cons_of_neg hl, List.filter_cons_of_neg hr]
          exact ih

/-- The keys of a range in order are those of its first part, then those of its second. -/
theorem select_split {a m b : String} (ham : keyLe a m = true) (hmb : keyLe m b = true)
    (keys : List String) :
    (Query.mk a b).select keys = (Query.mk a m).select keys ++ (Query.mk m b).select keys := by
  have hsorted : ((Query.mk a m).select keys ++ (Query.mk m b).select keys).Pairwise
      fun a b ↦ keyLe a b = true := by
    refine List.pairwise_append.2 ⟨pairwise_select _ _, pairwise_select _ _, ?_⟩
    intro x hx y hy
    have hxm := (contains_iff_keyLe.1 (mem_select.1 hx).2).2
    have hmy := (contains_iff_keyLe.1 (mem_select.1 hy).2).1
    have hx' : keyLe x m = true := by
      rcases Bool.or_eq_true_iff.1 (keyLe_total x m) with h | h
      · exact h
      · exact (hxm h).elim
    exact keyLe_trans _ _ _ hx' hmy
  have hperm : ((Query.mk a b).select keys).Perm
      ((Query.mk a m).select keys ++ (Query.mk m b).select keys) :=
    (List.mergeSort_perm _ _).trans <| (perm_filter_split ham hmb keys).trans <|
      ((List.mergeSort_perm _ _).symm.append (List.mergeSort_perm _ _).symm)
  exact hperm.eq_of_pairwise (fun _ _ _ _ hab hba ↦ keyLe_antisymm hab hba)
    (pairwise_select _ _) hsorted

end Query

/-! ## Chains of windows -/

theorem keyLe_partitionOffset {a b : Instant} (account : String) (ha : a.date.HasFourDigitYear)
    (hb : b.date.HasFourDigitYear) (h : a.hourNumber ≤ b.hourNumber) :
    keyLe (partitionOffset account a) (partitionOffset account b) = true := by
  have hn : ¬ byteLt (partitionOffset account b) (partitionOffset account a) = true := by
    rw [byteLt_partitionOffset account hb ha]
    omega
  simp [keyLe, hn]

namespace IsChain

variable {account : String} {a b : Instant} {w : Window} {ws : List Window}

/-- The offsets of the first window of a chain, that of its end, and the rest of the chain. -/
theorem cons_spec (h : IsChain account a (w :: ws) b) (ha : a.date.HasFourDigitYear)
    (hb : b.date.HasFourDigitYear) :
    w.query = ⟨partitionOffset account a, partitionOffset account w.stop⟩ ∧
      keyLe (partitionOffset account a) (partitionOffset account w.stop) = true ∧
      keyLe (partitionOffset account w.stop) (partitionOffset account b) = true ∧
      w.stop.date.HasFourDigitYear ∧ IsChain account w.stop ws b := by
  obtain ⟨hw, hlt, hon, hws⟩ := h
  have ham := Instant.hourNumber_mono (le_of_lt hlt)
  have hmb := Instant.hourNumber_mono hws.le
  have hm := Instant.hasFourDigitYear_of_le ham hmb ha hb
  exact ⟨congrArg Window.query hw, keyLe_partitionOffset account ha hm ham,
    keyLe_partitionOffset account hm hb hmb, hm, hws⟩

/-- The listings of the windows of a chain follow each other in that of the whole. -/
theorem flatten_select (h : IsChain account a ws b) (ha : a.date.HasFourDigitYear)
    (hb : b.date.HasFourDigitYear) (keys : List String) :
    (ws.map fun w ↦ w.query.select keys).flatten =
      (Window.between account a b).query.select keys := by
  induction ws generalizing a with
  | nil =>
      obtain rfl : a = b := h
      exact (Query.select_of_same _ keys).symm
  | cons w ws ih =>
      obtain ⟨hq, ham, hmb, hm, hws⟩ := h.cons_spec ha hb
      rw [List.map_cons, List.flatten_cons, ih hws hm, hq]
      exact (Query.select_split ham hmb keys).symm

/-- A key of the whole is in one window of a chain, and any other key in none. -/
theorem countP_contains (h : IsChain account a ws b) (ha : a.date.HasFourDigitYear)
    (hb : b.date.HasFourDigitYear) (key : String) :
    (ws.countP fun w ↦ w.query.contains key) =
      if (Window.between account a b).query.contains key then 1 else 0 := by
  induction ws generalizing a with
  | nil =>
      obtain rfl : a = b := h
      simp [Window.between, Query.not_contains_of_same]
  | cons w ws ih =>
      obtain ⟨hq, ham, hmb, hm, hws⟩ := h.cons_spec ha hb
      obtain ⟨hiff, hnot⟩ := Query.contains_split ham hmb key
      simp only [Window.between] at ih ⊢
      rw [List.countP_cons, ih hws hm, hq]
      by_cases hl : (Query.mk (partitionOffset account a)
          (partitionOffset account w.stop)).contains key
      · have hr := mt (And.intro hl) hnot
        have hw := hiff.2 (.inl hl)
        simp [hl, hr, hw]
      · by_cases hr : (Query.mk (partitionOffset account w.stop)
            (partitionOffset account b)).contains key
        · have hw := hiff.2 (.inr hr)
          simp [hl, hr, hw]
        · have hw := mt hiff.1 (not_or.2 ⟨hl, hr⟩)
          simp [hl, hr, hw]

end IsChain

/-! ## File stores -/

namespace FileStore

variable (store : FileStore) (tree : Node)

theorem mapM_list_of_collect {all : List String} (h : store.collect tree = .ok all)
    (ws : List Window) :
    (ws.mapM fun w ↦ store.list tree w.query) = .ok (ws.map fun w ↦ w.query.select all) := by
  induction ws with
  | nil => rfl
  | cons w ws ih =>
      rw [List.mapM_cons, ih, list, h]
      rfl

theorem mapM_list_of_error {e : UsageError} (h : store.collect tree = .error e)
    {ws : List Window} (hws : ws ≠ []) :
    (ws.mapM fun w ↦ store.list tree w.query) = .error e := by
  obtain ⟨w, ws, rfl⟩ := List.exists_cons_of_ne_nil hws
  rw [List.mapM_cons, list, h]
  rfl

/-- A listing fails only as the enumeration of the store does, whatever the range is. -/
theorem list_eq_error {q : Query} {e : UsageError} :
    store.list tree q = .error e ↔ store.collect tree = .error e := by
  rw [list]
  cases store.collect tree <;> simp [Except.map]

theorem list_eq_ok {q : Query} {keys : List String} :
    store.list tree q = .ok keys ↔ ∃ all, store.collect tree = .ok all ∧ q.select all = keys := by
  rw [list]
  cases store.collect tree <;> simp [Except.map]

/-- The windows of a schedule list one after the other what a query over the whole range lists.
Each key of the query is in exactly one of the windows, and no other key is in any. -/
theorem list_by_windows (account : String) {start stop : Instant} {step : Duration}
    (hle : start ≤ stop) (hstart : start.date.HasFourDigitYear)
    (hstop : stop.date.HasFourDigitYear) (hstep : 3600 ≤ step.secs) :
    ∃ s q, Schedule.ofRange account start stop step = .ok s ∧
      Query.ofRange account start stop = .ok q ∧
      (∀ keys, store.list tree q = .ok keys →
        (s.windows.mapM fun w ↦ store.list tree w.query).map List.flatten = .ok keys) ∧
      (∀ e, store.list tree q = .error e → s.windows ≠ [] →
        (s.windows.mapM fun w ↦ store.list tree w.query) = .error e) ∧
      ∀ key, (s.windows.countP fun w ↦ w.query.contains key) = if q.contains key then 1 else 0 := by
  have hs := Schedule.ofRange_of_le account hstep hle
  have hchain := Schedule.isChain_of_ofRange hs
  have hstart' : start.truncateToHour.date.HasFourDigitYear := by simpa using hstart
  have hstop' : stop.truncateToHour.date.HasFourDigitYear := by simpa using hstop
  refine ⟨_, _, hs, Query.ofRange_of_le account hle, ?_, ?_, ?_⟩
  · intro keys hkeys
    obtain ⟨all, hall, rfl⟩ := (store.list_eq_ok tree).1 hkeys
    rw [store.mapM_list_of_collect tree hall, ← hchain.flatten_select hstart' hstop']
    rfl
  · intro e he hne
    exact store.mapM_list_of_error tree ((store.list_eq_error tree).1 he) hne
  · exact hchain.countP_contains hstart' hstop'

/-- Windows of an hour and a half over the leap day of 2000, in a store whose one object lies in
the last hour before the end of the range. -/
theorem list_by_windows_over_leap_day :
    let start : Instant := ⟨951777000, 0, by decide, by decide, by decide⟩
    let stop : Instant := ⟨951873000, 0, by decide, by decide, by decide⟩
    let step : Duration := ⟨5400, 0, by decide, by decide, by decide⟩
    let store : FileStore := ⟨"store", "json"⟩
    let key := "account=a/date=2000-03-01/hour=00/x.json"
    let tree := (Node.dir []).plant (.file []) (Path.names (utf8 ("store/" ++ key)))
    start ≤ stop ∧ start.date.HasFourDigitYear ∧ stop.date.HasFourDigitYear ∧ 3600 ≤ step.secs ∧
      ∃ s q, Schedule.ofRange "a" start stop step = .ok s ∧
        Query.ofRange "a" start stop = .ok q ∧
        store.list tree q = .ok [key] ∧
        (s.windows.mapM fun w ↦ store.list tree w.query).map List.flatten = .ok [key] ∧
        (s.windows.countP fun w ↦ w.query.contains key) = 1 := by
  intro start stop step store key tree
  have hle : start ≤ stop := by decide
  have hstart : start.date.HasFourDigitYear := by decide +kernel
  have hstop : stop.date.HasFourDigitYear := by decide +kernel
  have hstep : 3600 ≤ step.secs := by decide
  have hroot : tree.resolve (utf8 store.root) = .ok [utf8 "store"] :=
    Node.resolve_of_direct? (by decide +kernel) (by decide +kernel)
  obtain ⟨s, q, hs, hq, hlist, -, hcount⟩ :=
    list_by_windows store tree "a" hle hstart hstop hstep
  obtain rfl := Except.ok.inj (hq.symm.trans (Query.ofRange_of_le "a" hle))
  have hkey : store.list tree (Window.between "a" start.truncateToHour
      stop.truncateToHour).query = .ok [key] := by
    rw [list, collect_of_lengths hroot rfl (by decide +kernel)]
    decide +kernel
  have hcontains : (Window.between "a" start.truncateToHour
      stop.truncateToHour).query.contains key = true := by decide +kernel
  have hone := hcount key
  rw [if_pos hcontains] at hone
  exact ⟨hle, hstart, hstop, hstep, s, _, hs, hq, hkey, hlist [key] hkey, hone⟩

end FileStore
end HourlyUsage
