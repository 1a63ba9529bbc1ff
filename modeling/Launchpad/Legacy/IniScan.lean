/-
# The legacy INI scanner and its pointers

A pointer of the scanner stands for the text from there to the end of the file
(`At`). Every scanning function then reads what its counterpart on texts reads,
inside the buffer, and finds names and values inside the text.
-/
import Launchpad.Legacy.IniText
import Launchpad.Legacy.IniMemory

namespace Launchpad
namespace Legacy
namespace IniMemory

variable {m : IniMemory} {p : ℕ} {s t : Str}

/-- The pointer is at a text that goes on to the end of the buffer. -/
def At (m : IniMemory) (p : ℕ) (s : Str) : Prop := m.pbuf.drop p = s ++ ['\x00']

/-! ### Scanning -/

theorem At.length (h : At m p s) : p + s.length + 1 = m.pbuf.length := by
  have hlen := congrArg List.length h
  rw [List.length_drop, List.length_append, List.length_singleton] at hlen
  omega

theorem At.drop (h : At m p s) {k : ℕ} (hk : k ≤ s.length) : At m (p + k) (s.drop k) := by
  have hdrop := congrArg (List.drop k) h
  rwa [List.drop_drop, List.drop_append_of_le_length hk] at hdrop

theorem At.getElem? (h : At m p s) : m.pbuf[p]? = some (peek s) := by
  have hhead := congrArg List.head? h
  rw [List.head?_drop] at hhead
  rw [hhead]
  cases s with
  | nil => rfl
  | cons c s => rfl

theorem At.getElem?_add (h : At m p s) {k : ℕ} (hk : k ≤ s.length) :
    m.pbuf[p + k]? = some (peek (s.drop k)) := (h.drop hk).getElem?

theorem scan_append {f : Char → Bool} (hf : f '\x00' = false) (s : Str) :
    scan f (s ++ ['\x00']) = some (s.takeWhile f).length := by
  induction s with
  | nil => simp [scan, hf]
  | cons c s ih =>
    simp only [List.cons_append, scan, ih]
    by_cases hc : f c = true
    · simp [hc]
    · simp [hc]

theorem At.scanFrom (h : At m p s) {f : Char → Bool} (hf : f '\x00' = false) :
    m.scanFrom f p = some (p + (s.takeWhile f).length) := by
  rw [IniMemory.scanFrom, h, scan_append hf]
  rfl

theorem drop_length_takeWhile (f : Char → Bool) (s : Str) :
    s.drop (s.takeWhile f).length = s.dropWhile f := by
  induction s with
  | nil => rfl
  | cons c s ih =>
    by_cases hc : f c = true
    · simp [hc, ih]
    · simp [hc]

theorem At.dropWhile (h : At m p s) (f : Char → Bool) :
    At m (p + (s.takeWhile f).length) (s.dropWhile f) := by
  rw [← drop_length_takeWhile]
  exact h.drop (List.takeWhile_prefix f).length_le

theorem At.skipws (h : At m p s) : ∃ k, m.skipws p = some (p + k) ∧ At m (p + k) (Legacy.skipws s) :=
  ⟨_, h.scanFrom (by decide), h.dropWhile _⟩

theorem At.skipline (h : At m p s) :
    ∃ k, m.skipline p = some (p + k) ∧ At m (p + k) (Legacy.skipline s) := by
  have hline := h.dropWhile fun c => c ≠ '\x00' ∧ c ≠ '\n'
  rw [IniMemory.skipline, h.scanFrom (by decide)]
  simp only [Option.bind_eq_bind, Option.bind_some, hline.getElem?, Legacy.skipline]
  by_cases hend : peek (s.dropWhile fun c => c ≠ '\x00' ∧ c ≠ '\n') = '\n'
  · have hpos : 0 < (s.dropWhile fun c => c ≠ '\x00' ∧ c ≠ '\n').length := by
      apply List.length_pos_iff.mpr
      intro hnil
      rw [hnil] at hend
      exact absurd hend (by decide)
    rw [if_pos hend, if_pos hend]
    refine ⟨(s.takeWhile fun c => c ≠ '\x00' ∧ c ≠ '\n').length + 1, rfl, ?_⟩
    rw [← Nat.add_assoc]
    exact hline.drop hpos
  · rw [if_neg hend, if_neg hend]
    exact ⟨_, rfl, hline⟩

theorem sectionNameLoop_append (s : Str) : ∀ len : ℤ,
    sectionNameLoop len (s ++ ['\x00']) = some (Legacy.sectionNameLoop len s) := by
  induction s with
  | nil =>
    intro len
    by_cases h0 : len = 0
    · simp [sectionNameLoop, Legacy.sectionNameLoop, h0]
    · simp [sectionNameLoop, Legacy.sectionNameLoop, h0]
  | cons c s ih =>
    intro len
    simp only [List.cons_append, sectionNameLoop, Legacy.sectionNameLoop]
    split_ifs
    · rfl
    · rfl
    · exact ih len
    · exact ih 1
    · exact ih (len + 1)

theorem At.parseSectionName (h : At m p s) :
    m.parseSectionName p = some (Legacy.parseSectionName s) := by
  rw [IniMemory.parseSectionName, h]
  exact sectionNameLoop_append s (-1)

theorem At.backUp (h : At m p s) : ∀ q, q ≤ s.length → m.backUp p q = some (Legacy.backUp s q)
  | 0, _ => by
    rw [IniMemory.backUp, h.getElem?, Legacy.backUp]
    rfl
  | q + 1, hq => by
    rw [IniMemory.backUp, h.getElem?_add hq, Legacy.backUp]
    simp only [Option.bind_eq_bind, Option.bind_some]
    split_ifs
    · exact h.backUp q (by omega)
    · rfl

theorem At.parseKeyValue (h : At m p s) : m.parseKeyValue p = some (Legacy.parseKeyValue s) := by
  have hle : (s.takeWhile fun c => c ≠ '\n' ∧ c ≠ '\r' ∧ c ≠ '\x00').length ≤ s.length :=
    (List.takeWhile_prefix _).length_le
  rw [IniMemory.parseKeyValue, h.scanFrom (by decide)]
  simp only [Option.bind_eq_bind, Option.bind_some, Legacy.parseKeyValue, Nat.add_sub_cancel_left]
  by_cases hpos : (s.takeWhile fun c => c ≠ '\n' ∧ c ≠ '\r' ∧ c ≠ '\x00').length > 0
  · rw [if_pos hpos, if_pos (by omega)]
    exact h.backUp _ hle
  · rw [if_neg hpos, if_neg (by omega)]
    rfl

theorem At.parseKeyName (h : At m p s) : m.parseKeyName p = some (Legacy.parseKeyName s) := by
  have hle : (s.takeWhile fun c => c ≠ '=' ∧ c ≠ '\n' ∧ c ≠ '\r' ∧ c ≠ '\x00').length ≤ s.length :=
    (List.takeWhile_prefix _).length_le
  rw [IniMemory.parseKeyName, h.scanFrom (by decide), Legacy.parseKeyName]
  generalize (s.takeWhile fun c => c ≠ '=' ∧ c ≠ '\n' ∧ c ≠ '\r' ∧ c ≠ '\x00').length = n at hle ⊢
  simp only [Option.bind_eq_bind, Option.bind_some, h.getElem?_add hle]
  have hback : p + n - 1 - p = n - 1 := by omega
  split_ifs with heq hpos hpos'
  · rw [hback]
    exact h.backUp _ (by omega)
  · omega
  · omega
  · rfl
  · rfl

/-! ### How far a name or a value reaches -/

theorem backUp_le (s : Str) : ∀ q, Legacy.backUp s q ≤ q + 1
  | 0 => by
    rw [Legacy.backUp]
    split_ifs <;> omega
  | q + 1 => by
    rw [Legacy.backUp]
    have hle := backUp_le s q
    split_ifs <;> omega

/-- What is before the first character that fails a test has only such that pass it. -/
theorem notMem_take_of_le {f : Char → Bool} {c : Char} (hc : f c = false) {k : ℕ}
    (hk : k ≤ (s.takeWhile f).length) : c ∉ s.take k := by
  intro hmem
  have htake : s.take k <+: s.takeWhile f :=
    List.prefix_of_prefix_length_le (List.take_prefix k s) (List.takeWhile_prefix f)
      (by rw [List.length_take]; omega)
  have hpass := List.mem_takeWhile_imp (htake.subset hmem)
  rw [hc] at hpass
  exact Bool.noConfusion hpass

theorem parseKeyValue_le (s : Str) :
    Legacy.parseKeyValue s ≤ (s.takeWhile fun c => c ≠ '\n' ∧ c ≠ '\r' ∧ c ≠ '\x00').length := by
  have hle : (s.takeWhile fun c => c ≠ '\n' ∧ c ≠ '\r' ∧ c ≠ '\x00').length ≤ s.length :=
    (List.takeWhile_prefix _).length_le
  have hstop : (peek (s.dropWhile fun c => c ≠ '\n' ∧ c ≠ '\r' ∧ c ≠ '\x00')).toNat ≤ 32 := by
    have hhead := List.head?_dropWhile_not (fun c => c ≠ '\n' ∧ c ≠ '\r' ∧ c ≠ '\x00') s
    generalize s.dropWhile (fun c => c ≠ '\n' ∧ c ≠ '\r' ∧ c ≠ '\x00') = rest at hhead
    cases rest with
    | nil => decide
    | cons c rest =>
      have hc : ¬ (c ≠ '\n' ∧ c ≠ '\r' ∧ c ≠ '\x00') := by simpa using hhead
      show c.toNat ≤ 32
      by_cases h1 : c = '\n'
      · rw [h1]; decide
      · by_cases h2 : c = '\r'
        · rw [h2]; decide
        · have h3 : c = '\x00' := by
            by_contra h3
            exact hc ⟨h1, h2, h3⟩
          rw [h3]; decide
  rw [← drop_length_takeWhile] at hstop
  rw [Legacy.parseKeyValue]
  generalize (s.takeWhile fun c => c ≠ '\n' ∧ c ≠ '\r' ∧ c ≠ '\x00').length = n at hle hstop ⊢
  cases n with
  | zero => rfl
  | succ n =>
    rw [if_pos (Nat.succ_pos n), Legacy.backUp, if_pos hstop]
    exact backUp_le s n

theorem parseKeyName_le (h : 0 < Legacy.parseKeyName s) :
    Legacy.parseKeyName s ≤
        (s.takeWhile fun c => c ≠ '=' ∧ c ≠ '\n' ∧ c ≠ '\r' ∧ c ≠ '\x00').length ∧
      peek (s.dropWhile fun c => c ≠ '=' ∧ c ≠ '\n' ∧ c ≠ '\r' ∧ c ≠ '\x00') = '=' := by
  rw [← drop_length_takeWhile]
  rw [Legacy.parseKeyName] at h ⊢
  generalize (s.takeWhile fun c => c ≠ '=' ∧ c ≠ '\n' ∧ c ≠ '\r' ∧ c ≠ '\x00').length = n at h ⊢
  split_ifs at h ⊢ with heq hpos
  · have hle := backUp_le s (n - 1)
    exact ⟨by omega, heq⟩
  · exact absurd h (lt_irrefl _)
  · exact absurd h (lt_irrefl _)

/-- A name that is found ends before a bracket, with no zero byte before it. -/
theorem sectionNameLoop_pos (s : Str) : ∀ len : ℤ, len ≠ 0 → 0 < Legacy.sectionNameLoop len s →
    ∃ a b, s = a ++ ']' :: b ∧ '\x00' ∉ a ∧
      Legacy.sectionNameLoop len s ≤ max len 0 + a.length := by
  induction s with
  | nil => exact fun len _ h => absurd h (Int.lt_irrefl 0)
  | cons c s ih =>
    intro len hlen h
    rw [Legacy.sectionNameLoop] at h ⊢
    by_cases hc : c = ']'
    · rw [if_pos (.inl hc)]
      exact ⟨[], s, by rw [hc]; rfl, List.not_mem_nil, by rw [List.length_nil]; omega⟩
    · have hgo : ¬ (c = ']' ∨ len = 0) := by simp [hc, hlen]
      rw [if_neg hgo] at h ⊢
      by_cases hstop : c = '\n' ∨ c = '\x00'
      · rw [if_pos hstop] at h
        exact absurd h (Int.lt_irrefl 0)
      · rw [if_neg hstop] at h ⊢
        have hnul : '\x00' ≠ c := fun he => hstop (.inr he.symm)
        by_cases hcr : c = '\r'
        · rw [if_pos hcr] at h ⊢
          obtain ⟨a, b, rfl, hmem, hle⟩ := ih len hlen h
          refine ⟨c :: a, b, rfl, by simp [hnul, hmem], ?_⟩
          rw [List.length_cons]
          push_cast
          omega
        · rw [if_neg hcr] at h ⊢
          have hnext : (if len = -1 then 1 else len + 1) ≠ 0 := by split_ifs <;> omega
          obtain ⟨a, b, rfl, hmem, hle⟩ := ih _ hnext h
          refine ⟨c :: a, b, rfl, by simp [hnul, hmem], ?_⟩
          rw [List.length_cons]
          push_cast
          split_ifs at hle ⊢ <;> omega

theorem parseSectionName_le (h : 0 < Legacy.parseSectionName s) :
    (Legacy.parseSectionName s).toNat < s.length ∧
      '\x00' ∉ s.take (Legacy.parseSectionName s).toNat := by
  obtain ⟨a, b, hs, hmem, hle⟩ := sectionNameLoop_pos s (-1) (by decide) h
  have hle' : (Legacy.parseSectionName s).toNat ≤ a.length := by
    have hmax : max (-1 : ℤ) 0 = 0 := rfl
    rw [hmax] at hle
    rw [Legacy.parseSectionName]
    omega
  have hlen := congrArg List.length hs
  rw [List.length_append, List.length_cons] at hlen
  refine ⟨by omega, fun hin => hmem ?_⟩
  have htake : s.take (Legacy.parseSectionName s).toNat = a.take (Legacy.parseSectionName s).toNat := by
    generalize (Legacy.parseSectionName s).toNat = k at hle'
    rw [hs]
    exact List.take_append_of_le_length hle'
  rw [htake] at hin
  exact List.mem_of_mem_take hin

end IniMemory
end Legacy
end Launchpad
