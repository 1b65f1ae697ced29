import Muaddib.ChaosSeeds
import Muaddib.StreamPeriods

/-! # Steps that record nothing

A step draws at least two words and few more, so no long stretch of words is skipped. A run that goes
once around the stream meets stretches where every word chooses an operation that records nothing. -/
namespace Muaddib.Chaos
open LabelledRuns

/-- Between two states of the stream at most `n` words were drawn. -/
def Draws (n : ℕ) (rng rng' : SplitMix64) : Prop := ∃ k ≤ n, rng' = rng.advance k

section Widths
variable {α β : Type} {rng rng' rng'' : SplitMix64} {m n : ℕ}

theorem Draws.trans (h : Draws m rng rng') (h' : Draws n rng' rng'') : Draws (m + n) rng rng'' := by
  obtain ⟨j, hj, rfl⟩ := h
  obtain ⟨k, hk, rfl⟩ := h'
  exact ⟨j + k, Nat.add_le_add hj hk, rng.advance_advance j k⟩

theorem Draws.mono (h : Draws m rng rng') (hle : m ≤ n) : Draws n rng rng' := by
  obtain ⟨k, hk, rfl⟩ := h
  exact ⟨k, hk.trans hle, rfl⟩

theorem below_advance {i : ℕ} (h : rng.below n = (i, rng')) : rng' = rng.advance 1 := by
  have hsnd : (rng.below n).2 = rng.advance 1 := rng.nextU64_snd
  rwa [h] at hsnd

theorem below_draws {i : ℕ} (h : rng.below n = (i, rng')) : Draws 1 rng rng' :=
  ⟨1, le_rfl, below_advance h⟩

theorem percent_draws {p : UInt64} {b : Bool} (h : rng.percent p = (b, rng')) : Draws 1 rng rng' := by
  have hsnd : (rng.percent p).2 = rng.advance 1 := rng.nextU64_snd
  rw [h] at hsnd
  exact ⟨1, le_rfl, hsnd⟩

theorem draws_foldl {f : α × SplitMix64 → β → α × SplitMix64}
    (hf : ∀ acc b, Draws 1 acc.2 (f acc b).2) (bs : List β) (acc : α × SplitMix64) :
    Draws bs.length acc.2 (bs.foldl f acc).2 := by
  induction bs generalizing acc with
  | nil => exact ⟨0, le_rfl, acc.2.advance_zero.symm⟩
  | cons b bs ih => exact ((hf acc b).trans (ih (f acc b))).mono (Nat.add_comm 1 bs.length).le

theorem draws_arbRights (rng : SplitMix64) : Draws 5 rng (arbRights rng).2 := by
  rw [arbRights]
  refine (draws_foldl ?_ _ _).mono (Nat.le_refl 5)
  rintro ⟨acc, rng⟩ r
  rcases hheld : rng.percent 50 with ⟨held, rng₁⟩
  simp only [hheld]
  exact percent_draws hheld

theorem arbPick_draws {pick : Pick} (h : arbPick rng = (pick, rng')) : Draws 2 rng rng' := by
  rcases hreplay : rng.percent 30 with ⟨replay, rng₁⟩
  rcases hn : rng₁.below (2 ^ 16) with ⟨n, rng₂⟩
  simp only [arbPick, hreplay, hn, Prod.mk.injEq] at h
  obtain ⟨-, rfl⟩ := h
  exact (percent_draws hreplay).trans (below_draws hn)

theorem arbSpan_draws {span : ℕ × ℕ} (h : arbSpan rng = (span, rng')) : Draws 3 rng rng' := by
  rcases hsmall : rng.percent 75 with ⟨small, rng₁⟩
  rcases hoffset : rng₁.below (if small then 4 else maxRegionSize + 8) with ⟨offset, rng₂⟩
  rcases hlen : rng₂.below (if small then 5 else 10) with ⟨len, rng₃⟩
  simp only [arbSpan, hsmall, hoffset, hlen, Prod.mk.injEq] at h
  obtain ⟨-, rfl⟩ := h
  exact ((percent_draws hsmall).trans (below_draws hoffset)).trans (below_draws hlen)

theorem draws_arbKind (choice : ℕ) (rng : SplitMix64) : Draws 5 rng (arbKind choice rng).2 := by
  have hnone : Draws 5 rng rng := ⟨0, Nat.zero_le 5, rng.advance_zero.symm⟩
  rcases choice with _ | _ | choice
  · exact hnone
  · exact draws_arbRights rng
  · exact hnone

theorem draws_arbGrant (rng : SplitMix64) : Draws 7 rng (arbGrant rng).2 := by
  rcases hchoice : rng.below 3 with ⟨choice, rng₁⟩
  rcases hkind : arbKind choice rng₁ with ⟨kind, rng₂⟩
  rcases hindex : rng₂.below (2 ^ 16) with ⟨index, rng₃⟩
  have hmiddle := draws_arbKind choice rng₁
  rw [hkind] at hmiddle
  rw [arbGrant, hchoice, hkind, hindex]
  exact ((below_draws hchoice).trans hmiddle).trans (below_draws hindex)

theorem draws_arbGrantList (n : ℕ) (rng : SplitMix64) : Draws (7 * n) rng (arbGrantList n rng).2 := by
  induction n generalizing rng with
  | zero => exact ⟨0, le_rfl, rng.advance_zero.symm⟩
  | succ n ih =>
    rw [arbGrantList]
    exact ((draws_arbGrant rng).trans (ih (arbGrant rng).2)).mono (by omega)

theorem arbGrants_eq (rng : SplitMix64) :
    arbGrants rng = arbGrantList (rng.below 4).1 (rng.below 4).2 := rfl

theorem draws_arbGrants (rng : SplitMix64) : Draws 22 rng (arbGrants rng).2 := by
  rw [arbGrants_eq]
  rcases hn : rng.below 4 with ⟨n, rng₁⟩
  have hlt : n < 4 := by
    have h := rng.below_lt (by omega : 0 < 4)
    rwa [hn] at h
  exact ((below_draws hn).trans (draws_arbGrantList n rng₁)).mono (by omega)

/-- The choice of an operation that records nothing. -/
def Silent (choice : ℕ) : Prop := choice ≤ 5 ∨ 46 < choice ∧ choice ≤ 91

instance (choice : ℕ) : Decidable (Silent choice) :=
  inferInstanceAs (Decidable (choice ≤ 5 ∨ 46 < choice ∧ choice ≤ 91))

/-- What an operation draws for its arguments. -/
theorem opFor_draws (p choice : ℕ) (rng : SplitMix64) : ∃ op rng', opFor p choice rng = (op, rng') ∧
    Draws 23 rng rng' ∧ (Silent choice → op.records = false) := by
  have hloud : ∀ {b : Bool}, 5 < choice → choice ≤ 46 ∨ 91 < choice → Silent choice → b = false := by
    intro b hlow hhigh hsilent
    rw [Silent] at hsilent
    omega
  by_cases hnew : choice ≤ 5
  · rcases hsize : rng.below maxRegionSize with ⟨size, rng₁⟩
    rw [opFor, if_pos hnew, hsize]
    exact ⟨_, _, rfl, (below_draws hsize).mono (by decide), fun _ => rfl⟩
  by_cases hspawn : choice ≤ 10
  · rw [opFor, if_neg hnew, if_pos hspawn]
    exact ⟨_, _, rfl, (draws_arbGrants rng).mono (by decide), hloud (by omega) (by omega)⟩
  by_cases hsend : choice ≤ 28
  · rcases hchannel : rng.below channelCount with ⟨channel, rng₁⟩
    rw [opFor, if_neg hnew, if_neg hspawn, if_pos hsend, hchannel]
    exact ⟨_, _, rfl, (below_draws hchannel).trans (draws_arbGrants rng₁), hloud (by omega) (by omega)⟩
  by_cases hreceive : choice ≤ 46
  · rcases hchannel : rng.below channelCount with ⟨channel, rng₁⟩
    rw [opFor, if_neg hnew, if_neg hspawn, if_neg hsend, if_pos hreceive, hchannel]
    exact ⟨_, _, rfl, (below_draws hchannel).mono (by decide), hloud (by omega) (by omega)⟩
  by_cases hread : choice ≤ 61
  · rcases hspan : arbSpan rng with ⟨⟨offset, len⟩, rng₁⟩
    rcases hpick : arbPick rng₁ with ⟨pick, rng₂⟩
    rcases hany : rng₂.percent 15 with ⟨any, rng₃⟩
    rw [opFor, if_neg hnew, if_neg hspawn, if_neg hsend, if_neg hreceive, if_pos hread, hspan]
    dsimp only
    rw [hpick, hany]
    exact ⟨_, _, rfl, (((arbSpan_draws hspan).trans (arbPick_draws hpick)).trans
      (percent_draws hany)).mono (by decide), fun _ => rfl⟩
  by_cases hwrite : choice ≤ 76
  · rcases hspan : arbSpan rng with ⟨⟨offset, len⟩, rng₁⟩
    rcases hpick : arbPick rng₁ with ⟨pick, rng₂⟩
    rcases hany : rng₂.percent 15 with ⟨any, rng₃⟩
    have hbyte : Draws 1 rng₃ rng₃.nextU64.2 := ⟨1, le_rfl, rng₃.nextU64_snd⟩
    rw [opFor, if_neg hnew, if_neg hspawn, if_neg hsend, if_neg hreceive, if_neg hread, if_pos hwrite,
      hspan]
    dsimp only
    rw [hpick, hany]
    exact ⟨_, _, rfl, ((((arbSpan_draws hspan).trans (arbPick_draws hpick)).trans
      (percent_draws hany)).trans hbyte).mono (by decide), fun _ => rfl⟩
  rcases hpick : arbPick rng with ⟨pick, rng₁⟩
  have hdraws : Draws 23 rng rng₁ := (arbPick_draws hpick).mono (by decide)
  by_cases hrevoke : choice ≤ 85
  · rw [opFor, if_neg hnew, if_neg hspawn, if_neg hsend, if_neg hreceive, if_neg hread, if_neg hwrite,
      if_pos hrevoke, hpick]
    exact ⟨_, _, rfl, hdraws, fun _ => rfl⟩
  by_cases hdestroy : choice ≤ 91
  · rw [opFor, if_neg hnew, if_neg hspawn, if_neg hsend, if_neg hreceive, if_neg hread, if_neg hwrite,
      if_neg hrevoke, if_pos hdestroy, hpick]
    exact ⟨_, _, rfl, hdraws, fun _ => rfl⟩
  · rw [opFor, if_neg hnew, if_neg hspawn, if_neg hsend, if_neg hreceive, if_neg hread, if_neg hwrite,
      if_neg hrevoke, if_neg hdestroy]
    exact ⟨_, _, rfl, ⟨0, Nat.zero_le 23, rng.advance_zero.symm⟩, hloud (by omega) (by omega)⟩

end Widths

/-- The operations of `n` steps that record nothing. -/
def silences (n : ℕ) (rng : SplitMix64) (w : World) : ℕ :=
  (generated n rng w).countP fun op => !op.records

section Stretches
variable {tr : List SystemEntry} {n a c d : ℕ} {w : World} {base : SplitMix64}

/-- A step draws a process, a choice, and at most 23 words for the arguments. -/
theorem Running.advances (h : Running tr (n + 1) (base.advance a) w) :
    ∃ tr' a' w', Running tr' n (base.advance a') w' ∧ a + 2 ≤ a' ∧ a' ≤ a + 25 ∧
      silences n (base.advance a') w' ≤ silences (n + 1) (base.advance a) w ∧
      (Silent ((base.advance (a + 1)).below 100).1 →
        1 + silences n (base.advance a') w' ≤ silences (n + 1) (base.advance a) w) := by
  obtain ⟨op, rng', w', hnext, hlater⟩ := h.next
  rcases hp : (base.advance a).below w.procs.length with ⟨p, rng₁⟩
  rcases hchoice : rng₁.below 100 with ⟨choice, rng₂⟩
  obtain ⟨op', rng₃, hop, ⟨k, hk, hrng⟩, hsilent⟩ := opFor_draws p choice rng₂
  have hgenerate : w.generate (base.advance a) = (op', rng₃) := by
    rw [generate_eq, hp, hchoice]
    exact hop
  obtain ⟨rfl, rfl⟩ := Prod.mk.inj (hnext.generate.symm.trans hgenerate)
  have hfirst : rng₁ = base.advance (a + 1) := by rw [below_advance hp, SplitMix64.advance_advance]
  have hsecond : rng₂ = base.advance (a + 2) := by
    rw [below_advance hchoice, hfirst, SplitMix64.advance_advance]
  have hlast : rng' = base.advance (a + 2 + k) := by rw [hrng, hsecond, SplitMix64.advance_advance]
  have hcount : silences (n + 1) (base.advance a) w =
      silences n rng' w' + if op.records = false then 1 else 0 := by
    rw [silences, hnext.ops, List.countP_cons, silences]
    simp
  rw [hlast] at hcount hlater
  refine ⟨_, a + 2 + k, w', hlater, by omega, by omega, by omega, ?_⟩
  intro hquiet
  rw [← hfirst, hchoice] at hquiet
  rw [hcount, if_pos (hsilent hquiet)]
  omega

/-- A run that draws past a stretch where every word would be a silent choice has a silent step. -/
theorem Running.passes (h : Running tr n (base.advance a) w)
    (hstretch : ∀ i, c ≤ i → i < d → Silent ((base.advance i).below 100).1) (hn : 0 < n)
    (hreach : c ≤ a + 1 ∧ a + 2 ≤ d ∨ a ≤ c ∧ c + 25 ≤ d ∧ c + 2 ≤ a + 2 * n) :
    ∃ tr' m a' w', Running tr' m (base.advance a') w' ∧ a' ≤ d + 23 ∧ a + 2 * n ≤ a' + 2 * m ∧
      1 + silences m (base.advance a') w' ≤ silences n (base.advance a) w := by
  induction n generalizing tr a w with
  | zero => exact absurd hn (Nat.lt_irrefl 0)
  | succ n ih =>
    obtain ⟨tr', a', w', hnext, hlow, hhigh, hkept, hmore⟩ := h.advances
    -- a step that begins before the stretch ends inside it, or before it again
    by_cases hstart : c ≤ a + 1
    · exact ⟨tr', n, a', w', hnext, by omega, by omega, hmore (hstretch (a + 1) hstart (by omega))⟩
    · obtain ⟨tr'', m, a'', w'', hlater, hbound, hsteps, hcount⟩ := ih hnext (by omega) (by omega)
      exact ⟨tr'', m, a'', w'', hlater, hbound, by omega, by omega⟩

/-- A run passes separate stretches one after the other. -/
theorem Running.length_le_silences {starts : List ℕ} (h : Running tr n (base.advance a) w)
    (hstretch : ∀ c ∈ starts, ∀ i, c ≤ i → i < c + 25 → Silent ((base.advance i).below 100).1)
    (hwithin : ∀ c ∈ starts, a ≤ c ∧ c + 2 ≤ a + 2 * n)
    (hapart : starts.Pairwise fun c c' => c + 48 ≤ c') :
    starts.length ≤ silences n (base.advance a) w := by
  induction starts generalizing tr n a w with
  | nil => exact Nat.zero_le _
  | cons c starts ih =>
    obtain ⟨hfirst, hrest⟩ := List.pairwise_cons.mp hapart
    obtain ⟨hlow, hhigh⟩ := hwithin c List.mem_cons_self
    obtain ⟨tr', m, a', w', hlater, hbound, hsteps, hcount⟩ :=
      h.passes (hstretch c List.mem_cons_self) (by omega) (.inr ⟨hlow, le_rfl, hhigh⟩)
    have hahead : ∀ c' ∈ starts, a' ≤ c' ∧ c' + 2 ≤ a' + 2 * m := by
      intro c' hc'
      have hstart := hfirst c' hc'
      have hend := (hwithin c' (List.mem_cons_of_mem c hc')).2
      omega
    have hcounted := ih hlater (fun c' hc' => hstretch c' (List.mem_cons_of_mem c hc')) hahead hrest
    rw [List.length_cons]
    omega

end Stretches

/-- Where the stream from state 0 has 25 silent choices in a row. -/
def quietStretches : List ℕ :=
  [44512764, 115987508, 156498593, 169695809, 223641039, 227909711, 320765684]

theorem quietStretches_silent : ∀ c ∈ quietStretches, ∀ i < 25,
    Silent (((SplitMix64.new 0).advance (c + i)).below 100).1 := by decide +kernel

section Seeds
variable {seed : UInt64} {steps : ℕ}

/-- A run that goes almost around the stream has seven steps that record nothing. -/
theorem seededOps_silences (hsteps : 2 ^ 64 ≤ steps + 8)
    (hsparing : Sparing (runTrace (seededOps seed steps))) :
    7 ≤ (seededOps seed steps).countP fun op => !op.records := by
  obtain ⟨start, hstart, hzero⟩ := (SplitMix64.new seed).exists_advance (.new 0)
  have hrunning : Running bootTrace steps ((SplitMix64.new seed).advance 0) World.boot := by
    rw [SplitMix64.advance_zero]
    exact boot_running hsparing
  have hlate : ∀ c ∈ quietStretches, c < 2 ^ 32 := by decide
  have hcount : (quietStretches.map (start + ·)).length ≤
      silences steps ((SplitMix64.new seed).advance 0) World.boot := by
    apply hrunning.length_le_silences
    · intro c hc i hlow hhigh
      obtain ⟨offset, hoffset, rfl⟩ := List.mem_map.mp hc
      have hquiet := quietStretches_silent offset hoffset (i - (start + offset)) (by omega)
      have hplace : start + (offset + (i - (start + offset))) = i := by omega
      rwa [← hzero, SplitMix64.advance_advance, hplace] at hquiet
    · intro c hc
      obtain ⟨offset, hoffset, rfl⟩ := List.mem_map.mp hc
      have hlt := hlate offset hoffset
      omega
    · have hapart : quietStretches.Pairwise fun c c' => c + 48 ≤ c' := by decide
      rw [List.pairwise_map]
      exact hapart.imp fun h => by omega
  rw [List.length_map, SplitMix64.advance_zero] at hcount
  exact hcount

/-- However long, a run records fewer events than a counter can count. -/
theorem seededOps_events {w : World} (hsteps : steps < 2 ^ 64)
    (hsparing : Sparing (runTrace (seededOps seed steps)))
    (hmirrors : Mirrors (runTrace (seededOps seed steps)) w) :
    (causality (runTrace (seededOps seed steps))).nodes.length < 2 ^ 64 := by
  obtain ⟨-, hlength, hslim⟩ := seededOps_spec hsparing
  have hevents := events_le hmirrors hslim
  have hsplit := List.length_eq_countP_add_countP Op.records (l := seededOps seed steps)
  rw [hlength] at hsplit
  by_cases hlong : 2 ^ 64 ≤ steps + 8
  · have hquiet := seededOps_silences hlong hsparing
    have hsame : (fun op : Op => decide ¬op.records = true) = fun op => !op.records := by
      funext op
      cases op.records <;> rfl
    rw [hsame] at hsplit
    omega
  · omega

end Seeds
end Muaddib.Chaos
