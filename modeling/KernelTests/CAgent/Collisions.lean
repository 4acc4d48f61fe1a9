import KernelTests.CAgent.Server
import Mathlib.Data.List.MinMax
import Mathlib.Analysis.Real.Sqrt

/-!
# Feature collisions

The classifier hashes thirty keywords into thirty-two buckets.  Without collisions a
score is the sum of the weights of the keywords a text mentions; with them, a keyword
also gets the weights of other keywords in its bucket.  `similarity_eq` and
`squaredNorm_eq` separate the two parts, and the selected template is the one that is
selected without collisions exactly if the second part changes neither the order of the
scores at the top nor the side of the threshold.
-/

namespace KernelTests.CAgent

/-! ## Scores -/

/-- `compute_similarity` with real numbers, on normalised features. -/
noncomputable def score (text : CString) (t : Template) : ℝ :=
  ((List.range 32).map fun id ↦ features text id / √(squaredNorm text) * (t.weight id / 10)).sum

/-- The feature of a keyword that has a dimension of its own. -/
def feature (text keyword : CString) : ℕ := if strcasestr text keyword then 1 else 0

/-- The square of the norm of these features. -/
def plainNorm (text : CString) : ℕ :=
  (keywords.map fun keyword ↦ feature text keyword * feature text keyword).sum

/-- The weight of a keyword in a template. -/
def ownWeight (t : Template) (keyword : CString) : ℕ := (t.weights.lookup keyword).getD 0

/-- The same scoring without collisions. -/
noncomputable def plainScore (text : CString) (t : Template) : ℝ :=
  (keywords.map fun keyword ↦
    feature text keyword / √(plainNorm text) * (ownWeight t keyword / 10)).sum

open Classical in
/-- The first template with the greatest score, if the score exceeds the threshold. -/
noncomputable def select (score : Template → ℝ) : Option Template :=
  (templates.argmax score).filter fun t ↦ 3 / 10 < score t

/-! ## Exact comparisons -/

theorem sum_map_div_mul {α : Type} (l : List α) (f g : α → ℕ) (c : ℝ) :
    (l.map fun a ↦ (f a : ℝ) / c * (g a / 10)).sum =
      ((l.map fun a ↦ f a * g a).sum : ℕ) / (10 * c) := by
  induction l with
  | nil => simp
  | cons a l ih =>
      rw [List.map_cons, List.sum_cons, List.map_cons, List.sum_cons, ih]
      push_cast
      rw [add_div, div_mul_div_comm, mul_comm c 10]

theorem score_eq (text : CString) (t : Template) :
    score text t = similarity text t / (10 * √(squaredNorm text)) :=
  sum_map_div_mul _ _ _ _

/-- The sum of the weights of the mentioned keywords. -/
def ownSimilarity (text : CString) (t : Template) : ℕ :=
  (keywords.map fun keyword ↦ feature text keyword * ownWeight t keyword).sum

theorem plainScore_eq (text : CString) (t : Template) :
    plainScore text t = ownSimilarity text t / (10 * √(plainNorm text)) :=
  sum_map_div_mul _ _ _ _

/-- Scores with the same norm are compared by their dot products, and with the threshold after
squaring. -/
theorem select_div {f : Template → ℕ} {n : ℕ} (h : n = 0 → ∀ t, f t = 0) :
    select (fun t ↦ f t / (10 * √n)) =
      (templates.argmax f).filter fun t ↦ 9 * n < f t * f t := by
  have hlt : ∀ t u, (f t : ℝ) / (10 * √n) < f u / (10 * √n) ↔ f t < f u := by
    intro t u
    rcases Nat.eq_zero_or_pos n with hn | hn
    · simp [h hn]
    · have hpos : 0 < 10 * √(n : ℝ) := by positivity
      rw [div_lt_div_iff_of_pos_right hpos, Nat.cast_lt]
  have hthreshold : ∀ t, (3 / 10 : ℝ) < f t / (10 * √n) ↔ 9 * n < f t * f t := by
    intro t
    rcases Nat.eq_zero_or_pos n with hn | hn
    · have hnot : ¬ (3 / 10 : ℝ) < 0 := by norm_num
      simpa [h hn, hn] using hnot
    · have hpos : 0 < 10 * √(n : ℝ) := by positivity
      have hsquare : (√(n : ℝ)) ^ 2 = n := Real.sq_sqrt (Nat.cast_nonneg n)
      rw [lt_div_iff₀ hpos, show (3 / 10 : ℝ) * (10 * √n) = 3 * √n by ring,
        ← pow_lt_pow_iff_left₀ (by positivity) (Nat.cast_nonneg _) two_ne_zero, mul_pow, hsquare]
      norm_cast
      rw [sq (f t), show 3 ^ 2 * n = 9 * n by norm_num]
  have hle : ∀ t u, (f t : ℝ) / (10 * √n) ≤ f u / (10 * √n) ↔ f t ≤ f u := fun t u ↦ by
    rw [← not_lt, hlt, not_lt]
  have hargmax : templates.argmax (fun t ↦ (f t : ℝ) / (10 * √n)) = templates.argmax f := by
    refine Option.ext fun t ↦ ?_
    rw [List.argmax_eq_some_iff, List.argmax_eq_some_iff]
    simp only [hle]
  rw [select, hargmax]
  exact congrArg (Option.filter · _) (funext fun t ↦ decide_eq_decide.mpr (hthreshold t))

/-- The loop over the templates finds the first one with the greatest score. -/
theorem foldl_better (text : CString) (ts : List Template) :
    ts.foldl (better text) none = ts.argmax (similarity text) := by
  have hround : better text =
      List.argAux fun t b ↦ similarity text b < similarity text t := by
    funext best t
    cases best <;> rfl
  rw [hround, List.argmax]

/-! ## Buckets -/

/-- The keywords a text mentions. -/
def mentioned (text : CString) : List CString := keywords.filter fun keyword ↦ strcasestr text keyword

/-- Summing over the buckets is summing over what is in them. -/
theorem sum_buckets {α : Type} (h : α → ℕ) (w : ℕ → ℕ) {n : ℕ} {l : List α} (hl : ∀ a ∈ l, h a < n) :
    ((List.range n).map fun i ↦ (l.filter fun a ↦ h a = i).length * w i).sum =
      (l.map fun a ↦ w (h a)).sum := by
  induction l with
  | nil => simp
  | cons a l ih =>
      obtain ⟨ha, hl⟩ := List.forall_mem_cons.mp hl
      have hone : ((List.range n).map fun i ↦ if h a = i then w i else 0).sum = w (h a) := by
        change ∑ i ∈ Finset.range n, (if h a = i then w i else 0) = w (h a)
        rw [Finset.sum_ite_eq, if_pos (Finset.mem_range.mpr ha)]
      have hsplit : ∀ i, ((a :: l).filter fun a ↦ h a = i).length * w i =
          (if h a = i then w i else 0) + (l.filter fun a ↦ h a = i).length * w i := by
        intro i
        by_cases hi : h a = i
        · rw [List.filter_cons_of_pos (by simpa using hi), List.length_cons, if_pos hi]
          ring
        · rw [List.filter_cons_of_neg (by simpa using hi), if_neg hi, Nat.zero_add]
      simp only [hsplit]
      rw [List.sum_map_add, hone, ih hl, List.map_cons, List.sum_cons]

/-- The weight that a keyword gets because of another keyword in its bucket. -/
def crossWeight (t : Template) (keyword : CString) : ℕ :=
  if keyword ∈ t.weights.map Prod.fst then 0 else t.weight (hashKeyword keyword)

/-- The part of a score that comes from collisions. -/
def crosstalk (text : CString) (t : Template) : ℕ := ((mentioned text).map (crossWeight t)).sum

/-- The number of pairs of mentioned keywords in the same bucket, in both orders. -/
def collisions (text : CString) : ℕ :=
  ((mentioned text).map fun keyword ↦ ((mentioned text).filter fun other ↦
    other ≠ keyword ∧ hashKeyword other = hashKeyword keyword).length).sum

theorem hashKeyword_lt (keyword : CString) : hashKeyword keyword < 32 := Nat.mod_lt _ (by decide)

/-- The weights of a template are in different buckets. -/
theorem weight_hashKeyword : ∀ t ∈ templates, ∀ keyword ∈ keywords,
    t.weight (hashKeyword keyword) = ownWeight t keyword + crossWeight t keyword := by
  have hall : templates.all fun t ↦ keywords.all fun keyword ↦
      t.weight (hashKeyword keyword) = ownWeight t keyword + crossWeight t keyword := by
    decide
  intro t ht keyword hk
  exact of_decide_eq_true (List.all_eq_true.mp (List.all_eq_true.mp hall t ht) keyword hk)

/-! ## Own weights and crosstalk -/

theorem sum_map_feature (text : CString) (f : CString → ℕ) :
    (keywords.map fun keyword ↦ feature text keyword * f keyword).sum =
      ((mentioned text).map f).sum := by
  rw [mentioned]
  induction keywords with
  | nil => rfl
  | cons keyword keywords ih =>
      rw [List.map_cons, List.sum_cons, ih, feature]
      by_cases h : strcasestr text keyword
      · rw [if_pos h, List.filter_cons_of_pos h, List.map_cons, List.sum_cons, Nat.one_mul]
      · rw [if_neg h, List.filter_cons_of_neg h, Nat.zero_mul, Nat.zero_add]

theorem ownSimilarity_eq (text : CString) (t : Template) :
    ownSimilarity text t = ((mentioned text).map (ownWeight t)).sum := sum_map_feature _ _

theorem plainNorm_eq (text : CString) : plainNorm text = (mentioned text).length := by
  have hone : (mentioned text).map (feature text) = (mentioned text).map fun _ ↦ 1 :=
    List.map_congr_left fun k hk ↦ if_pos (List.of_mem_filter hk)
  rw [plainNorm, sum_map_feature, hone, List.map_const', List.sum_replicate, smul_eq_mul, Nat.mul_one]

theorem mentioned_subset {text keyword : CString} (h : keyword ∈ mentioned text) :
    keyword ∈ keywords := List.mem_of_mem_filter h

/-- A score is the sum of the weights of the mentioned keywords, and crosstalk. -/
theorem similarity_eq (text : CString) {t : Template} (ht : t ∈ templates) :
    similarity text t = ownSimilarity text t + crosstalk text t := by
  have hsum := sum_buckets hashKeyword t.weight (l := mentioned text) fun k _ ↦ hashKeyword_lt k
  have hweights : (mentioned text).map (fun k ↦ t.weight (hashKeyword k)) =
      (mentioned text).map fun k ↦ ownWeight t k + crossWeight t k :=
    List.map_congr_left fun k hk ↦ weight_hashKeyword t ht k (mentioned_subset hk)
  rw [hweights, List.sum_map_add] at hsum
  rw [ownSimilarity_eq, crosstalk, ← hsum]
  rfl

theorem nodup_keywords : keywords.Nodup := by decide

theorem length_filter_of_mem {α : Type} [DecidableEq α] {l : List α} (hl : l.Nodup) {a : α}
    (ha : a ∈ l) {p : α → Bool} (hp : p a) :
    (l.filter p).length = 1 + (l.filter fun b ↦ b ≠ a ∧ p b).length := by
  have hmem : a ∈ l.filter p := List.mem_filter.mpr ⟨ha, hp⟩
  have herase : (l.filter fun b ↦ b ≠ a ∧ p b) = (l.filter p).erase a := by
    rw [(hl.filter p).erase_eq_filter, List.filter_filter]
    refine List.filter_congr fun b _ ↦ ?_
    cases p b <;> simp [bne, beq_eq_decide]
  have hpos := List.length_pos_of_mem hmem
  rw [herase, List.length_erase_of_mem hmem]
  omega

/-- The square of the norm counts the mentioned keywords, and the pairs that collide. -/
theorem squaredNorm_eq (text : CString) :
    squaredNorm text = (mentioned text).length + collisions text := by
  have hsum := sum_buckets hashKeyword (features text) (l := mentioned text) fun k _ ↦
    hashKeyword_lt k
  have hbucket : (mentioned text).map (fun k ↦ features text (hashKeyword k)) =
      (mentioned text).map fun k ↦ 1 + ((mentioned text).filter fun other ↦
        other ≠ k ∧ hashKeyword other = hashKeyword k).length := by
    refine List.map_congr_left fun k hk ↦ ?_
    have hsplit := length_filter_of_mem (nodup_keywords.filter _) hk
      (p := fun other ↦ hashKeyword other = hashKeyword k) (by simp)
    simp only [decide_eq_true_eq] at hsplit
    exact hsplit
  rw [hbucket, List.sum_map_add, List.map_const', List.sum_replicate, smul_eq_mul, Nat.mul_one,
    ← collisions] at hsum
  exact hsum

/-! ## The selected template -/

/-- The selection without collisions. -/
noncomputable def collisionFree (text : CString) : Option Template := select (plainScore text)

theorem sum_eq_zero_of_squaredNorm {text : CString} (h : (mentioned text).length = 0)
    (f : CString → ℕ) : ((mentioned text).map f).sum = 0 := by
  rw [List.length_eq_zero_iff.mp h]
  rfl

/-- The selection of the program, with real numbers. -/
theorem inferCommand_eq_select (text : CString) : inferCommand text = select (score text) := by
  have hzero : squaredNorm text = 0 → ∀ t, similarity text t = 0 := by
    intro h t
    rw [squaredNorm_eq, Nat.add_eq_zero_iff] at h
    have hsum := sum_buckets hashKeyword t.weight (l := mentioned text) fun k _ ↦ hashKeyword_lt k
    exact hsum.trans (sum_eq_zero_of_squaredNorm h.1 _)
  rw [inferCommand, foldl_better, funext (score_eq text), select_div hzero]

theorem collisionFree_eq (text : CString) :
    collisionFree text = (templates.argmax (ownSimilarity text)).filter fun t ↦
      9 * (mentioned text).length < ownSimilarity text t * ownSimilarity text t := by
  have hzero : plainNorm text = 0 → ∀ t, ownSimilarity text t = 0 := by
    intro h t
    rw [plainNorm_eq] at h
    rw [ownSimilarity_eq]
    exact sum_eq_zero_of_squaredNorm h _
  rw [collisionFree, funext (plainScore_eq text), select_div hzero, plainNorm_eq]

/-- A score with its crosstalk. -/
def total (text : CString) (t : Template) : ℕ := ownSimilarity text t + crosstalk text t

/-- Crosstalk lifts no template over the selected one and does not push it under the threshold;
and if none is selected, it lifts none over the threshold. -/
structure Undisturbed (text : CString) : Prop where
  best : ∀ t, collisionFree text = some t → ∀ u ∈ templates, total text u ≤ total text t ∧
    (total text t ≤ total text u → templates.idxOf t ≤ templates.idxOf u)
  above : ∀ t, collisionFree text = some t →
    9 * ((mentioned text).length + collisions text) < total text t * total text t
  below : collisionFree text = none → ∀ t ∈ templates,
    total text t * total text t ≤ 9 * ((mentioned text).length + collisions text)

theorem argmax_filter_eq_some_iff {f : Template → ℕ} {n : ℕ} {t : Template} :
    ((templates.argmax f).filter fun t ↦ n < f t * f t) = some t ↔ t ∈ templates ∧
      (∀ u ∈ templates, f u ≤ f t ∧ (f t ≤ f u → templates.idxOf t ≤ templates.idxOf u)) ∧
        n < f t * f t := by
  rw [Option.filter_eq_some_iff, List.argmax_eq_some_iff, decide_eq_true_eq, and_assoc]
  refine and_congr_right fun _ ↦ ?_
  refine and_congr_left fun _ ↦ ?_
  exact ⟨fun h u hu ↦ ⟨h.1 u hu, h.2 u hu⟩, fun h ↦ ⟨fun u hu ↦ (h u hu).1, fun u hu ↦ (h u hu).2⟩⟩

theorem argmax_filter_eq_none_iff {f : Template → ℕ} {n : ℕ} :
    ((templates.argmax f).filter fun t ↦ n < f t * f t) = none ↔
      ∀ t ∈ templates, f t * f t ≤ n := by
  obtain ⟨b, hb⟩ : ∃ b, templates.argmax f = some b :=
    Option.ne_none_iff_exists'.mp fun hnone ↦ absurd (List.argmax_eq_none.mp hnone) (by decide)
  obtain ⟨hmem, hle, _⟩ := List.argmax_eq_some_iff.mp hb
  rw [hb, Option.filter_eq_none_iff]
  constructor
  · intro hbest t ht
    have hlow := hbest b rfl
    rw [decide_eq_true_eq, not_lt] at hlow
    exact (Nat.mul_le_mul (hle t ht) (hle t ht)).trans hlow
  · rintro hall _ ⟨⟩
    rw [decide_eq_true_eq, not_lt]
    exact hall b hmem

theorem inferCommand_eq (text : CString) : inferCommand text =
    (templates.argmax (similarity text)).filter fun t ↦
      9 * ((mentioned text).length + collisions text) < similarity text t * similarity text t := by
  rw [inferCommand, foldl_better, squaredNorm_eq]

theorem mem_of_collisionFree {text : CString} {t : Template} (h : collisionFree text = some t) :
    t ∈ templates := by
  rw [collisionFree, select, Option.filter_eq_some_iff] at h
  exact List.argmax_mem h.1

theorem inferCommand_eq_collisionFree_iff (text : CString) :
    inferCommand text = collisionFree text ↔ Undisturbed text := by
  have htotal : ∀ u ∈ templates, similarity text u = total text u := fun u hu ↦
    similarity_eq text hu
  rw [inferCommand_eq]
  cases h : collisionFree text with
  | none =>
      rw [argmax_filter_eq_none_iff]
      constructor
      · intro hbelow
        refine ⟨by simp [h], by simp [h], fun _ t ht ↦ ?_⟩
        rw [← htotal t ht]
        exact hbelow t ht
      · intro hu t ht
        rw [htotal t ht]
        exact hu.below h t ht
  | some t =>
      have ht := mem_of_collisionFree h
      rw [argmax_filter_eq_some_iff, htotal t ht]
      constructor
      · rintro ⟨_, hbest, habove⟩
        refine ⟨fun t' ht' u hu ↦ ?_, fun t' ht' ↦ ?_, by simp [h]⟩
        · obtain rfl := Option.some.inj (h.symm.trans ht')
          rw [← htotal u hu]
          exact hbest u hu
        · obtain rfl := Option.some.inj (h.symm.trans ht')
          exact habove
      · intro hundisturbed
        refine ⟨ht, fun u hu ↦ ?_, hundisturbed.above t h⟩
        rw [htotal u hu]
        exact hundisturbed.best t h u hu

/-! ## Texts without collisions -/

/-- No mentioned keyword shares its bucket with another mentioned one, or with another keyword that
has a weight. -/
structure Separate (text : CString) : Prop where
  apart : ∀ k ∈ mentioned text, ∀ k' ∈ mentioned text, hashKeyword k' = hashKeyword k → k' = k
  unweighted : ∀ k ∈ mentioned text, ∀ t ∈ templates, ∀ p ∈ t.weights,
    hashKeyword p.1 = hashKeyword k → p.1 = k

theorem weight_eq_zero {t : Template} {id : ℕ} (h : ∀ p ∈ t.weights, hashKeyword p.1 ≠ id) :
    t.weight id = 0 := by
  suffices hall : ∀ (l : List (CString × ℕ)) (w : ℕ), (∀ p ∈ l, hashKeyword p.1 ≠ id) →
      l.foldl (fun w p ↦ if hashKeyword p.1 = id then p.2 else w) w = w from hall _ 0 h
  intro l
  induction l with
  | nil => exact fun _ _ ↦ rfl
  | cons p l ih =>
      intro w hl
      obtain ⟨hp, hl⟩ := List.forall_mem_cons.mp hl
      rw [List.foldl_cons, if_neg hp]
      exact ih w hl

namespace Separate

variable {text : CString} (h : Separate text)

include h

theorem collisions_eq : collisions text = 0 := by
  rw [collisions, List.sum_eq_zero_iff]
  intro n hn
  obtain ⟨k, hk, rfl⟩ := List.mem_map.mp hn
  rw [List.length_eq_zero_iff, List.filter_eq_nil_iff]
  intro k' hk' hc
  obtain ⟨hne, hhash⟩ := of_decide_eq_true hc
  exact hne (h.apart k hk k' hk' hhash)

theorem crosstalk_eq {t : Template} (ht : t ∈ templates) : crosstalk text t = 0 := by
  rw [crosstalk, List.sum_eq_zero_iff]
  intro n hn
  obtain ⟨k, hk, rfl⟩ := List.mem_map.mp hn
  rw [crossWeight]
  split
  · rfl
  · next hnot =>
    refine weight_eq_zero fun p hp hhash ↦ hnot ?_
    rw [← h.unweighted k hk t ht p hp hhash]
    exact List.mem_map_of_mem hp

theorem total_eq {t : Template} (ht : t ∈ templates) : total text t = ownSimilarity text t := by
  rw [total, h.crosstalk_eq ht, Nat.add_zero]

/-- Without collisions the hashed features select the same template. -/
theorem undisturbed : Undisturbed text := by
  have hselect := collisionFree_eq text
  have hnorm : (mentioned text).length + collisions text = (mentioned text).length := by
    rw [h.collisions_eq, Nat.add_zero]
  refine ⟨fun t ht u hu ↦ ?_, fun t ht ↦ ?_, fun hnone t ht ↦ ?_⟩
  · obtain ⟨hmem, hbest, _⟩ := argmax_filter_eq_some_iff.mp (hselect.symm.trans ht)
    rw [h.total_eq hu, h.total_eq hmem]
    exact hbest u hu
  · obtain ⟨hmem, _, habove⟩ := argmax_filter_eq_some_iff.mp (hselect.symm.trans ht)
    rw [hnorm, h.total_eq hmem]
    exact habove
  · rw [hnorm, h.total_eq ht]
    exact argmax_filter_eq_none_iff.mp (hselect.symm.trans hnone) t ht

end Separate

/-- The text mentions no keyword of another template. -/
def MentionsOnly (text : CString) (t : Template) : Prop :=
  ∀ u ∈ templates, u ≠ t → ∀ k ∈ mentioned text, k ∉ u.weights.map Prod.fst

/-- Without collisions only the mentioned template can be selected. -/
theorem eq_of_collisionFree {text : CString} {t u : Template} (honly : MentionsOnly text t)
    (h : collisionFree text = some u) : u = t := by
  by_contra hne
  obtain ⟨hmem, _, habove⟩ :=
    argmax_filter_eq_some_iff.mp ((collisionFree_eq text).symm.trans h)
  have hzero : ownSimilarity text u = 0 := by
    rw [ownSimilarity_eq, List.sum_eq_zero_iff]
    intro n hn
    obtain ⟨k, hk, rfl⟩ := List.mem_map.mp hn
    have hnone : u.weights.lookup k = none := by
      rw [List.lookup_eq_none_iff]
      intro p hp
      have hpk : p.1 ≠ k := fun he ↦ honly u hmem hne k hk (he ▸ List.mem_map_of_mem hp)
      simpa using hpk.symm
    rw [ownWeight, hnone]
    rfl
  rw [hzero] at habove
  exact absurd habove (by simp)

/-! ## The chosen command -/

/-- A command belongs to one template. -/
theorem command_inj {t u : Template} (ht : t ∈ templates) (hu : u ∈ templates)
    (h : t.command = u.command) : t = u := by
  have hnodup : (templates.map Template.command).Nodup := by decide
  exact List.inj_on_of_nodup_map hnodup ht hu h

theorem mem_of_inferCommand {text : CString} {t : Template} (h : inferCommand text = some t) :
    t ∈ templates :=
  (argmax_filter_eq_some_iff.mp ((inferCommand_eq text).symm.trans h)).1

theorem chosenCommand_eq {text : CString} (h : directCommand text = none) :
    chosenCommand neuralInference text = (inferCommand text).map Template.command := by
  simp only [chosenCommand, h, neuralInference]

/-- **Collisions.**  Behind the direct commands the chosen command is the one that is chosen
without collisions exactly if crosstalk does not disturb the selection.  It does not if the
mentioned keywords do not collide; then a text that mentions keywords of one template only gets no
other command. -/
theorem chosenCommand_eq_collisionFree_iff (text : CString) (h : directCommand text = none) :
    (chosenCommand neuralInference text = (collisionFree text).map Template.command ↔
      Undisturbed text) ∧
    (Separate text → chosenCommand neuralInference text =
      (collisionFree text).map Template.command) ∧
    ∀ t, MentionsOnly text t → Separate text →
      ∀ command ∈ chosenCommand neuralInference text, command = t.command := by
  have hiff : chosenCommand neuralInference text = (collisionFree text).map Template.command ↔
      Undisturbed text := by
    rw [← inferCommand_eq_collisionFree_iff, chosenCommand_eq h]
    refine ⟨fun he ↦ ?_, congrArg _⟩
    cases hinfer : inferCommand text with
    | none =>
        rw [hinfer, Option.map_none, eq_comm, Option.map_eq_none_iff] at he
        exact he.symm
    | some t =>
        rw [hinfer, Option.map_some, eq_comm, Option.map_eq_some_iff] at he
        obtain ⟨u, hu, hcommand⟩ := he
        rw [hu, command_inj (mem_of_collisionFree hu) (mem_of_inferCommand hinfer) hcommand]
  refine ⟨hiff, fun hs ↦ hiff.mpr hs.undisturbed, fun t honly hs command hcommand ↦ ?_⟩
  rw [hiff.mpr hs.undisturbed] at hcommand
  obtain ⟨u, hu, rfl⟩ := Option.mem_map.mp hcommand
  rw [eq_of_collisionFree honly hu]

/-- The two keywords collide with those of another template, which comes later. -/
theorem undisturbed_cpu : Undisturbed (.lit "How many CPU cores?") := by
  rw [← inferCommand_eq_collisionFree_iff, collisionFree_eq]
  decide

/-- A prompt of the tests. -/
theorem chosenCommand_eq_collisionFree_cpu :
    chosenCommand neuralInference (.lit "How many CPU cores?") =
      (collisionFree (.lit "How many CPU cores?")).map Template.command :=
  (chosenCommand_eq_collisionFree_iff _ (by decide)).1.mpr undisturbed_cpu

/-- A text that mentions one keyword of one template is answered with the command of another
one. -/
theorem chosenCommand_ne_collisionFree_tcp :
    directCommand (.lit "tcp") = none ∧ chosenCommand neuralInference (.lit "tcp") ≠
      (collisionFree (.lit "tcp")).map Template.command := by
  refine ⟨by decide, ?_⟩
  rw [collisionFree_eq]
  decide

end KernelTests.CAgent
