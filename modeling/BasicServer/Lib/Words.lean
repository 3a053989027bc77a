/-
  Splitting a list into its words — the maximal runs of elements that are no separator.

  `next` is one extraction from a stream: skip separators, take the word, leave the rest.  `words`
  repeats it until no word is left (with fuel for structural recursion; `words_eq` is the fuel-free
  unfolding).  The proofs go through `Splits sep s ws`, which says how the words `ws` lie in `s`;
  `splits_words` and `Splits.words` make the function and the relation the same thing, and each law
  below is an induction on `Splits`:

    * words are non-empty and free of separators (`Splits.word`);
    * a list of words written with one separator before each is split into the same words
      (`words_joined`), and that is the shortest way to write them (`Splits.length_le`).
-/
import Mathlib.Tactic.Common
import Mathlib.Data.List.TakeWhile

namespace Words

variable {α : Type} (sep : α → Bool)

/-! ## Extracting one word -/

/-- The next word and what follows it. -/
def next (s : List α) : List α × List α :=
  ((s.dropWhile sep).takeWhile (fun c => !sep c), (s.dropWhile sep).dropWhile (fun c => !sep c))

/-- The list is empty or its first element separates. -/
def Stops (s : List α) : Prop := ∀ c t, s = c :: t → sep c = true

/-- A word: something, and no separator in it. -/
def IsWord (w : List α) : Prop := w ≠ [] ∧ ∀ c ∈ w, sep c = false

instance (w : List α) : Decidable (IsWord sep w) :=
  inferInstanceAs (Decidable (w ≠ [] ∧ ∀ c ∈ w, sep c = false))

variable {sep}

theorem stops_dropWhile (s : List α) : Stops sep (s.dropWhile fun c => !sep c) := by
  intro c t h
  have hc := List.head_dropWhile_not (fun c => !sep c) (l := s) (by rw [h]; simp)
  simpa [h] using hc

theorem dropWhile_seps {ws : List α} (hws : ∀ c ∈ ws, sep c = true) (s : List α) :
    (ws ++ s).dropWhile sep = s.dropWhile sep := by
  induction ws with
  | nil => rfl
  | cons c ws ih =>
    rw [List.cons_append, List.dropWhile_cons, if_pos (hws c (List.mem_cons_self ..))]
    exact ih fun d hd => hws d (List.mem_cons_of_mem c hd)

theorem dropWhile_word {w : List α} (hw : IsWord sep w) (s : List α) :
    (w ++ s).dropWhile sep = w ++ s := by
  obtain ⟨hne, hfree⟩ := hw
  cases w with
  | nil => exact absurd rfl hne
  | cons c w =>
    rw [List.cons_append, List.dropWhile_cons, if_neg]
    simp [hfree c (List.mem_cons_self ..)]

theorem span_word {w rest : List α} (hw : ∀ c ∈ w, sep c = false) (hr : Stops sep rest) :
    (w ++ rest).takeWhile (fun c => !sep c) = w ∧
    (w ++ rest).dropWhile (fun c => !sep c) = rest := by
  induction w with
  | nil =>
    cases rest with
    | nil => exact ⟨rfl, rfl⟩
    | cons c t => simp [hr c t rfl]
  | cons c w ih =>
    have hc : sep c = false := hw c (List.mem_cons_self ..)
    have ih' := ih fun d hd => hw d (List.mem_cons_of_mem c hd)
    simp [hc, ih'.1, ih'.2]

/-- Extraction finds the word after the separators. -/
theorem next_word {ws w rest : List α} (hws : ∀ c ∈ ws, sep c = true) (hw : IsWord sep w)
    (hr : Stops sep rest) : next sep (ws ++ (w ++ rest)) = (w, rest) := by
  have hspan := span_word hw.2 hr
  rw [next, dropWhile_seps hws, dropWhile_word hw, hspan.1, hspan.2]

/-- Among separators there is no word. -/
theorem next_seps {s : List α} (hs : ∀ c ∈ s, sep c = true) : next sep s = ([], []) := by
  have h := dropWhile_seps hs []
  rw [List.append_nil] at h
  rw [next, h]
  rfl

/-- How one extraction cuts the list. -/
theorem next_split (s : List α) : ∃ ws, (∀ c ∈ ws, sep c = true) ∧
    s = ws ++ ((next sep s).1 ++ (next sep s).2) ∧ (∀ c ∈ (next sep s).1, sep c = false) ∧
    Stops sep (next sep s).2 := by
  refine ⟨s.takeWhile sep, fun c hc => List.mem_takeWhile_imp hc, ?_, fun c hc => ?_, ?_⟩
  · rw [next, List.takeWhile_append_dropWhile, List.takeWhile_append_dropWhile]
  · simpa using List.mem_takeWhile_imp hc
  · exact stops_dropWhile _

/-! ## All the words -/

variable (sep) in
/-- Extract at most `n` words. -/
def loop : Nat → List α → List (List α)
  | 0, _ => []
  | n + 1, s =>
    match next sep s with
    | ([], _) => []
    | (c :: w, rest) => (c :: w) :: loop n rest

variable (sep) in
/-- All the words of the list; as many extractions as it has elements are enough. -/
def words (s : List α) : List (List α) := loop sep s.length s

variable (sep) in
/-- `Splits sep s ws` — the list `s` is made of the words `ws` with separators around them. -/
inductive Splits : List α → List (List α) → Prop
  | nil {s : List α} (hs : ∀ c ∈ s, sep c = true) : Splits s []
  | cons {gap w rest : List α} {ws : List (List α)} (hgap : ∀ c ∈ gap, sep c = true)
      (hw : IsWord sep w) (hr : Stops sep rest) (h : Splits rest ws) :
      Splits (gap ++ (w ++ rest)) (w :: ws)

theorem splits_loop : ∀ (n : Nat) (s : List α), s.length ≤ n → Splits sep s (loop sep n s) := by
  intro n
  induction n with
  | zero =>
    intro s hn
    have h0 : s = [] := List.length_eq_zero_iff.mp (by omega)
    subst h0
    exact .nil (fun c hc => absurd hc List.not_mem_nil)
  | succ n ih =>
    intro s hn
    obtain ⟨gap, hgap, hs, hw, hr⟩ := @next_split _ sep s
    rw [loop]
    rcases hnext : next sep s with ⟨w, rest⟩
    rw [hnext] at hs hw hr
    cases w with
    | nil =>
      -- no word found: what is left would have to start with a separator, so nothing is left
      have hrest : rest = [] := by
        have h := @stops_dropWhile _ sep (s.dropWhile sep)
        cases rest with
        | nil => rfl
        | cons c t =>
          have hc := hr c t rfl
          have hd : s.dropWhile sep = c :: t := by
            have h1 : (next sep s).1 ++ (next sep s).2 = s.dropWhile sep := by
              rw [next, List.takeWhile_append_dropWhile]
            rw [← h1, hnext]; rfl
          have hne := List.head_dropWhile_not sep (l := s) (by rw [hd]; simp)
          simp [hd, hc] at hne
      subst hrest
      rw [hs]
      exact .nil (by simpa using hgap)
    | cons c w =>
      have hlen : rest.length ≤ n := by
        have hl := congrArg List.length hs
        simp at hl
        omega
      rw [hs]
      exact .cons hgap ⟨by simp, hw⟩ hr (ih rest hlen)

/-- The function finds a way to split the list. -/
theorem splits_words (s : List α) : Splits sep s (words sep s) :=
  splits_loop s.length s (Nat.le_refl _)

theorem Splits.loop {s : List α} {ws : List (List α)} (h : Splits sep s ws) :
    ∀ n, s.length ≤ n → loop sep n s = ws := by
  induction h with
  | @nil s hs =>
    intro n _
    cases n with
    | zero => rfl
    | succ n => rw [Words.loop, next_seps hs]
  | @cons gap w rest ws hgap hw hr _ ih =>
    intro n hn
    have hlen := hw.1
    cases w with
    | nil => exact absurd rfl hlen
    | cons c w =>
      simp at hn
      cases n with
      | zero => omega
      | succ n =>
        rw [Words.loop, next_word hgap hw hr]
        exact congrArg _ (ih n (by omega))

/-- There is one way to split a list, and the function finds it. -/
theorem Splits.words {s : List α} {ws : List (List α)} (h : Splits sep s ws) :
    words sep s = ws := h.loop s.length (Nat.le_refl _)

/-- **Fuel-free unfolding**: one extraction, then the words of the rest. -/
theorem words_eq (s : List α) :
    words sep s = if (next sep s).1 = [] then [] else (next sep s).1 :: words sep (next sep s).2 := by
  have hsplit := @splits_words _ sep s
  generalize words sep s = ws at hsplit
  cases hsplit with
  | nil hs => rw [next_seps hs, if_pos rfl]
  | cons hgap hw hr h => rw [next_word hgap hw hr, if_neg hw.1, h.words]

/-! ## The laws -/

/-- What is split off is a word. -/
theorem Splits.word {s : List α} {ws : List (List α)} (h : Splits sep s ws) :
    ∀ w ∈ ws, IsWord sep w := by
  induction h with
  | nil _ => intro w hw; exact absurd hw List.not_mem_nil
  | cons _ hw _ _ ih =>
    intro v hv
    rcases List.mem_cons.mp hv with rfl | hv
    · exact hw
    · exact ih v hv

theorem isWord_of_mem {s w : List α} (h : w ∈ words sep s) : IsWord sep w :=
  (splits_words s).word w h

/-- The words `ws`, each with `sp` in front. -/
def joined (sp : α) (ws : List (List α)) : List α := ws.flatMap (sp :: ·)

@[simp] theorem joined_nil (sp : α) : joined sp [] = [] := rfl

@[simp] theorem joined_cons (sp : α) (w : List α) (ws : List (List α)) :
    joined sp (w :: ws) = sp :: (w ++ joined sp ws) := rfl

theorem not_mem_joined {c sp : α} (hc : c ≠ sp) {ws : List (List α)} (h : ∀ w ∈ ws, c ∉ w) :
    c ∉ joined sp ws := by
  intro hmem
  obtain ⟨w, hw, hmem⟩ := List.mem_flatMap.mp hmem
  rcases List.mem_cons.mp hmem with hsp | hmem
  · exact hc hsp
  · exact h w hw hmem

theorem stops_joined {sp : α} (hsp : sep sp = true) (ws : List (List α)) :
    Stops sep (joined sp ws) := by
  intro c t h
  cases ws with
  | nil => cases h
  | cons w ws => rw [joined_cons] at h; injection h with h1 _; rw [← h1]; exact hsp

/-- **Round trip**: words written with one separator before each are split into the same words. -/
theorem splits_joined {sp : α} (hsp : sep sp = true) {ws : List (List α)}
    (h : ∀ w ∈ ws, IsWord sep w) : Splits sep (joined sp ws) ws := by
  induction ws with
  | nil => exact .nil (fun c hc => absurd hc List.not_mem_nil)
  | cons w ws ih =>
    have hgap : ∀ c ∈ [sp], sep c = true := fun c hc => by
      rw [List.mem_singleton.mp hc]; exact hsp
    have htail := ih fun v hv => h v (List.mem_cons_of_mem w hv)
    exact @Splits.cons _ _ [sp] _ _ _ hgap (h w (List.mem_cons_self ..)) (stops_joined hsp ws) htail

theorem words_joined {sp : α} (hsp : sep sp = true) {ws : List (List α)}
    (h : ∀ w ∈ ws, IsWord sep w) : words sep (joined sp ws) = ws := (splits_joined hsp h).words

/-- How long a list is at least, given its words: one separator lies between two of them, and one
    before the first if the list starts with a separator. -/
theorem Splits.length_le {s : List α} {ws : List (List α)} (sp : α) (h : Splits sep s ws) :
    (joined sp ws).length ≤ s.length + 1 ∧ (Stops sep s → (joined sp ws).length ≤ s.length) := by
  induction h with
  | nil _ => simp
  | @cons gap w rest ws hgap hw hr _ ih =>
    have hrest := ih.2 hr
    simp only [joined_cons, List.length_cons, List.length_append]
    refine ⟨by omega, fun hs => ?_⟩
    -- the gap before the first word is not empty: its first element separates, the word's does not
    have hgap1 : 1 ≤ gap.length := by
      cases gap with
      | cons _ _ => simp
      | nil =>
        obtain ⟨hne, hfree⟩ := hw
        cases w with
        | nil => exact absurd rfl hne
        | cons c w =>
          have hc := hs c (w ++ rest) rfl
          rw [hfree c (List.mem_cons_self ..)] at hc
          cases hc
    omega

/-- **Shortest form**: if `s` starts with a separator, one separator before each word is no longer
    than `s`. -/
theorem length_joined_le (sp : α) {s : List α} (hs : Stops sep s) :
    (joined sp (words sep s)).length ≤ s.length := ((splits_words s).length_le sp).2 hs

end Words
