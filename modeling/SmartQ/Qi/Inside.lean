import SmartQ.Qi.ReadFile

/-!
# Where the holes of a file end

* `Bounded`: a device read stores nothing behind the bytes it is asked for.
* `Filled`: how far the stores of a read go is decided by the holes.
-/

namespace SmartQ.Qi.Ext2

open SmartQ.Lib

/-- `devread`, whether it succeeds or fails, stores nothing behind the bytes it is
    asked for. -/
def Bounded {σ ε : Type} (devread : ℤ → ℤ → ℤ → ℤ → Prog σ ε (Bool × List Write)) : Prop :=
  ∀ st sk ok ws s s', ∀ ex : ℕ, devread st 0 sk ex s = some (.ok (ok, ws), s') →
    ∀ w ∈ ws, w.1 + w.2.length ≤ ex

/-! ## How far the holes are zero filled -/

section Filled

variable {r : Req} {l bs p n i : ℕ} {map : ℕ → ℕ} {v v' : Vars} {σ ε : Type}
  {readBlock : ℤ → Prog σ ε ℤ} {devread : ℤ → ℤ → ℤ → ℤ → Prog σ ε (Bool × List Write)}
  {s s1 s' : σ} {ok : Bool}

/-- The holes of the request before block `i` end within the first `n` bytes of the
    destination. -/
def HolesEnd (bs p : ℕ) (map : ℕ → ℕ) (n i : ℕ) : Prop :=
  ∀ k < i, p / bs ≤ k → map k = 0 → (k + 1) * bs - p ≤ n

/-- The state before block `i`: the stores are within the first `n` bytes exactly if
    the holes are. -/
structure Filled (r : Req) (bs p : ℕ) (map : ℕ → ℕ) (n i : ℕ) (v : Vars) : Prop where
  buf_eq : v.buf = i * bs - p
  out_iff : (∀ w ∈ v.out, w.1 + w.2.length ≤ n) ↔ HolesEnd bs p map n i
  extent : v.previousBlockNumber ≠ -1 →
    ∃ ex : ℕ, v.delayedExtent = ex ∧ v.delayedBuf + ex ≤ r.asked bs p i

theorem filled_init (hp : p / bs * bs ≤ p) : Filled r bs p map n (p / bs) .init := by
  refine ⟨?_, ?_, fun h => (h rfl).elim⟩
  · show 0 = _
    omega
  · constructor
    · intro _ k hk hpk
      omega
    · exact fun _ w hw => absurd hw List.not_mem_nil

/-- Reading the extent changes nothing of that. -/
theorem Filled.flush (hb : Bounded devread) (hn : r.len ≤ n) (h : Filled r bs p map n i v)
    (hrun : spillDelayed devread v s = some (.ok (ok, v'), s')) :
    v'.buf = v.buf ∧ ((∀ w ∈ v'.out, w.1 + w.2.length ≤ n) ↔ HolesEnd bs p map n i) := by
  unfold spillDelayed at hrun
  split_ifs at hrun with hprev
  · obtain ⟨ex, hex, hle⟩ := h.extent hprev
    unfold spill at hrun
    rw [hex] at hrun
    obtain ⟨⟨ok', ws⟩, s1, hdev, hrest⟩ := Prog.bind_eq_ok.mp hrun
    have hws := hb _ _ _ _ _ _ _ hdev
    have hasked := r.asked_le bs p i
    cases hrest
    refine ⟨rfl, ?_⟩
    rw [← h.out_iff]
    constructor
    · exact fun hall w hw => hall w (List.mem_append_left _ hw)
    · intro hold w hw
      rcases List.mem_append.mp hw with hw | hw
      · exact hold w hw
      · obtain ⟨w', hw', rfl⟩ := List.mem_map.mp hw
        have hle' := hws w' hw'
        show v.delayedBuf + w'.1 + w'.2.length ≤ _
        omega
  · cases hrun
    exact ⟨rfl, h.out_iff⟩

theorem HolesEnd.succ_of_ne (hmap : map i ≠ 0) :
    HolesEnd bs p map n (i + 1) ↔ HolesEnd bs p map n i := by
  constructor
  · exact fun h k hk => h k (by omega)
  · intro h k hk hpk hzero
    have hne : k ≠ i := by
      rintro rfl
      exact hmap hzero
    exact h k (by omega) hpk hzero

theorem HolesEnd.succ_of_zero (hi : p / bs ≤ i) (hmap : map i = 0) :
    HolesEnd bs p map n (i + 1) ↔ HolesEnd bs p map n i ∧ (i + 1) * bs - p ≤ n := by
  constructor
  · exact fun h => ⟨fun k hk => h k (by omega), h i (by omega) hi hmap⟩
  · rintro ⟨h, hlast⟩ k hk hpk hzero
    rcases Nat.lt_succ_iff_lt_or_eq.mp hk with hk | rfl
    · exact h k hk hpk hzero
    · exact hlast

/-- One round of the loop. -/
theorem Filled.block (hfit : r.Fits l bs p) (hlen : r.len < 2 ^ 31) (hb : Bounded devread)
    (hn : r.len ≤ n) (h : Filled r bs p map n i v) (hi : p / bs ≤ i) (hlt : i * bs < p + r.len)
    (hsec : shl32 (map i) r.log2blocksize = 0 ↔ map i = 0)
    (hread : readBlock i s = some (.ok (map i : ℤ), s1))
    (hrun : block readBlock devread r i v s = some (.ok (true, v'), s')) :
    Filled r bs p map n (i + 1) v' := by
  have hbuf := h.buf_eq
  have hend := hfit.blockend_eq hi hlt
  have hbstep := hfit.buf_step hi
  have hpart := hfit.buf_add_part hi hlt
  have hlast := r.asked_le bs p (i + 1)
  unfold Ext2.block at hrun
  rw [Prog.bind_ok hread, if_neg (by omega), hfit.step_eq hi] at hrun
  by_cases hmap : map i = 0
  · rw [if_neg (not_not_intro (hsec.mpr hmap))] at hrun
    obtain ⟨⟨ok1, v1⟩, s2, hbody, hdone⟩ := Prog.bind_eq_ok.mp hrun
    unfold holeBlock at hbody
    rw [hfit.step_eq hi] at hbody
    obtain ⟨⟨ok2, v2⟩, s3, hflush, hpure⟩ := Prog.bind_eq_ok.mp hbody
    obtain ⟨hbuf2, hout2⟩ := h.flush hb hn hflush
    cases hpure
    cases hdone
    refine ⟨?_, ?_, fun hne => (hne rfl).elim⟩
    · show v2.buf + _ = _
      rw [hbuf2, hbuf, hbstep]
    · show (∀ w ∈ v2.out ++ [(v2.buf, List.replicate (bs - (p - i * bs)) 0)], _) ↔ _
      have hzero : v2.buf + (List.replicate (bs - (p - i * bs)) (0 : Byte)).length =
          (i + 1) * bs - p := by
        rw [List.length_replicate, hbuf2, hbuf, hbstep]
      rw [HolesEnd.succ_of_zero hi hmap, ← hout2, ← hzero]
      simp only [List.mem_append, List.mem_singleton, or_imp, forall_and, forall_eq]
  · rw [if_pos (mt hsec.mp hmap)] at hrun
    obtain ⟨⟨ok1, v1⟩, s2, hbody, hdone⟩ := Prog.bind_eq_ok.mp hrun
    unfold dataBlock at hbody
    split_ifs at hbody with hadj
    · cases hbody
      cases hdone
      obtain ⟨ex, hex, hle⟩ := h.extent hadj.1
      rw [Req.asked_eq hlt] at hle
      refine ⟨?_, h.out_iff.trans (HolesEnd.succ_of_ne hmap).symm,
        fun _ => ⟨ex + r.part bs p i, ?_, ?_⟩⟩
      · show v.buf + _ = _
        rw [hbuf, hbstep]
      · show int32 (v.delayedExtent + r.blockend i) = _
        rw [hex, hend]
        exact int32_natCast (by omega)
      · show v.delayedBuf + _ ≤ _
        omega
    · obtain ⟨⟨ok2, v2⟩, s3, hflush, hpure⟩ := Prog.bind_eq_ok.mp hbody
      obtain ⟨hbuf2, hout2⟩ := h.flush hb hn hflush
      cases hpure
      cases hdone
      refine ⟨?_, hout2.trans (HolesEnd.succ_of_ne hmap).symm, fun _ => ⟨_, hend, ?_⟩⟩
      · show v2.buf + _ = _
        omega
      · show v2.buf + _ ≤ _
        omega

end Filled

end SmartQ.Qi.Ext2
