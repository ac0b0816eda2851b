import HourlyUsage.FileTree.Staging
import HourlyUsage.ObjectStore
import HourlyUsage.Proofs.ByteOrder
import HourlyUsage.Proofs.DigitRuns
import HourlyUsage.Proofs.StagedStore
import Mathlib.Data.List.Nodup

/-!
# Names for staged files

The names that are tried for a staged file differ in the number that they show.
A directory has fewer entries than are tried, so one of them is free, and none
has an extension.
-/

namespace HourlyUsage

open Text

namespace Text

theorem point_notMem_charBytes_decimal (n : Nat) : Ascii.point ∉ charBytes (decimal n) := by
  have hdigit : ∀ d < 10, Ascii.point ∉ charBytes [digit d] := by decide
  induction n using decimal.induct with
  | case1 n hn =>
      rw [decimal, if_pos hn]
      exact hdigit n hn
  | case2 n hn ih =>
      rw [decimal, if_neg hn, charBytes_append, List.mem_append, not_or]
      exact ⟨ih, hdigit _ (Nat.mod_lt n (by omega))⟩

theorem point_notMem_charBytes_replicate (k : Nat) :
    Ascii.point ∉ charBytes (List.replicate k '0') := by
  induction k with
  | zero => decide
  | succ k ih =>
      rw [List.replicate_succ, charBytes_cons, List.mem_append, not_or]
      exact ⟨by decide, ih⟩

end Text

theorem stagedName_injective : Function.Injective stagedName := by
  intro m n h
  have hchars := String.ofList_injective ((String.append_right_inj _).1 (utf8_inj h))
  have hvalue := congrArg digitsValue hchars
  rwa [digitsValue_replicate_append, digitsValue_replicate_append, digitsValue_decimal,
    digitsValue_decimal] at hvalue

theorem extension?_stagedName (n : Nat) : extension? (stagedName n) = none := by
  have hdot : utf8 ".tmp" = Ascii.point :: utf8 "tmp" := by decide
  rw [stagedName, utf8_append, hdot, utf8_ofList (_ ++ _), charBytes_append, List.cons_append]
  refine (extension?_append_point [] ?_).trans (if_pos rfl)
  simp only [List.mem_append, not_or]
  exact ⟨by decide, point_notMem_charBytes_replicate _, point_notMem_charBytes_decimal n⟩

/-- More names are tried than the entries can have. -/
theorem exists_free_stagedName (es : Entries) :
    ∃ n < es.length + 1, Entries.find? (stagedName n) es = none := by
  by_contra htaken
  have hsub : (List.range (es.length + 1)).map stagedName ⊆ es.map Prod.fst := by
    intro name hname
    obtain ⟨n, hn, rfl⟩ := List.mem_map.1 hname
    by_contra hmem
    exact htaken ⟨n, List.mem_range.1 hn, Entries.find?_of_not_mem hmem⟩
  have hle := (List.nodup_range.map stagedName_injective).length_le_of_subset hsub
  rw [List.length_map, List.length_map, List.length_range] at hle
  omega

theorem find?_freshName (es : Entries) : Entries.find? (freshName es) es = none := by
  obtain ⟨n, hn, hfree⟩ := exists_free_stagedName es
  unfold freshName
  dsimp only
  cases hfound : (List.range (es.length + 1)).find?
      (fun n ↦ !(Entries.find? (stagedName n) es).isSome) with
  | none =>
      have := List.find?_eq_none.1 hfound n (List.mem_range.2 hn)
      simp [hfree] at this
  | some m => simpa using List.find?_some hfound

end HourlyUsage
