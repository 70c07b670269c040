import CFunction.Uart.Proofs.ParseBuf

/-!
# What `parse_buf` delivers and leaves

Behind a line end the loop steps over one byte without looking at it. A `'\r'` may therefore be the
first byte that is left, and no other one is: the next call skips it in its search for `$`.
-/

namespace CFunction
namespace ReadGps

open CString ByteMemory

variable {σ α : Type} {consume : σ → ByteMemory → Int → Option (σ × ByteMemory × α)} {s s' : σ}
  {mem mem' : ByteMemory} {buf len i istart r : Int} {fuel : Nat} {out ds : List (Delivery α)}

/-- `parse_buf` is the one with `parse_packet` as the consumer. -/
theorem splitLoop_eq_with (env : Env) (fuel : Nat) : ∀ (g : Globals) (mem : ByteMemory)
    (i istart : Int) (out : List (Delivery Packet)),
    splitLoop env buf len fuel g mem i istart (out.map Delivery.result) =
      (splitLoopWith (parsePacket env) buf len fuel g mem i istart out).map
        fun (g, mem, r, ds) => (g, mem, r, ds.map Delivery.result) := by
  induction fuel with
  | zero =>
    intro g mem i istart out
    rw [splitLoop, splitLoopWith]
    split
    · rfl
    · rfl
  | succ fuel ih =>
    intro g mem i istart out
    rw [splitLoop, splitLoopWith]
    split
    · split
      · cases hpacket : parsePacket env g (mem.set (buf + i) 0) (buf + istart) with
        | none => rfl
        | some after =>
          have hout : out.map Delivery.result ++ [after.2.2] =
              (out ++ [⟨istart, i, after.2.2⟩] : List (Delivery Packet)).map Delivery.result := by
            rw [List.map_append]
            rfl
          simp only [Option.bind_eq_bind, Option.bind_some, hout, ih]
          split
          · rfl
          · rfl
      · exact ih _ _ _ _ _
    · rfl

theorem parseBuf_eq_with (env : Env) (g : Globals) (mem : ByteMemory) (buf len : Int) :
    parseBuf env g mem buf len = (parseBufWith (parsePacket env) g mem buf len).map
      fun (g, mem, r, ds) => (g, mem, r, ds.map Delivery.result) := by
  rw [parseBuf, parseBufWith]
  dsimp only
  split
  · rfl
  · exact splitLoop_eq_with env _ _ _ _ _ []

/-- A consumer that leaves the NUL that closes its string and what is behind it as they are, when
it returns. -/
def Consumes (consume : σ → ByteMemory → Int → Option (σ × ByteMemory × α)) (len : Nat) : Prop :=
  ∀ (s : σ) (mem : ByteMemory) (buf : Int) (n : Nat), n < len → mem (buf + n) = 0 →
    ∀ s' mem' result, consume s mem buf = some (s', mem', result) →
      ∀ x, buf + n ≤ x → mem' x = mem x

/-- A consumer that returns from each string. -/
def Returns (consume : σ → ByteMemory → Int → Option (σ × ByteMemory × α)) (len : Nat) : Prop :=
  ∀ (s : σ) (mem : ByteMemory) (buf : Int) (n : Nat), n < len → mem (buf + n) = 0 →
    (consume s mem buf).isSome

/-- `parse_packet` keeps to its string, for the sizes of the buffer. -/
theorem parsePacket_consumes (env : Env) : Consumes (parsePacket env) BUF_SIZE :=
  fun _ _ _ _ hn hnul _ _ _ hrun => (parsePacket_stringIn hnul hn hrun).2

theorem Consumes.mono {m n : Nat} (h : Consumes consume n) (hle : m ≤ n) : Consumes consume m :=
  fun s mem buf k hk => h s mem buf k (Nat.lt_of_lt_of_le hk hle)

/-! ### What is left -/

/-- Of the bytes from `i` up to `len` none is a `'\r'`. -/
def NoCr (mem : ByteMemory) (buf len i : Int) : Prop := ∀ x, i ≤ x → x < len → mem (buf + x) ≠ cr

/-- The loop delivers nothing where there is no `'\r'`. -/
theorem splitLoopWith_noCr (fuel : Nat) : ∀ i, len ≤ i + fuel → NoCr mem buf len i →
    splitLoopWith consume buf len fuel s mem i istart out = some (s, mem, istart, out) := by
  induction fuel with
  | zero =>
    intro i hfuel _
    rw [splitLoopWith, if_neg (by omega)]
  | succ fuel ih =>
    intro i hfuel hcr
    rw [splitLoopWith]
    split
    · rename_i hi
      rw [if_neg (hcr i (Int.le_refl i) hi)]
      exact ih (i + 1) (by omega) fun x hx hlen => hcr x (by omega) hlen
    · rfl

/-- The search ends at a `$`, or at the end of the buffer. -/
theorem findDollar_spec (mem : ByteMemory) (buf len : Int) (fuel : Nat) :
    ∀ i, i ≤ len → len ≤ i + fuel → i ≤ findDollar mem buf len fuel i ∧
      findDollar mem buf len fuel i ≤ len ∧
      (findDollar mem buf len fuel i < len →
        mem (buf + findDollar mem buf len fuel i) = dollar) := by
  induction fuel with
  | zero =>
    intro i hi hfuel
    rw [findDollar]
    omega
  | succ fuel ih =>
    intro i hi hfuel
    rw [findDollar]
    split
    · rename_i hnext
      have h := ih (i + 1) (by omega) (by omega)
      exact ⟨by omega, h.2⟩
    · rename_i hstop
      refine ⟨Int.le_refl i, hi, fun hlt => ?_⟩
      by_contra hne
      exact hstop ⟨hne, hlt⟩

/-- A call delivers nothing when only the first byte can be a `'\r'`. -/
theorem parseBufWith_noCr (hlen : 0 ≤ len) (hcr : NoCr mem buf len 1) :
    ∃ r', parseBufWith consume s mem buf len = some (s, mem, r', []) := by
  have hfind := findDollar_spec mem buf len len.toNat 0 hlen (by omega)
  rw [parseBufWith]
  generalize findDollar mem buf len len.toNat 0 = i at hfind
  obtain ⟨hi, -, hdollar⟩ := hfind
  split
  · exact ⟨len, rfl⟩
  · refine ⟨i, splitLoopWith_noCr _ i (by omega) ?_⟩
    intro x hx hxlen hxcr
    by_cases hfirst : x = 0
    · obtain rfl : x = i := by omega
      rw [hdollar hxlen] at hxcr
      exact absurd hxcr (by decide)
    · exact hcr x (by omega) hxlen hxcr

/-! ### What is delivered -/

/-- The consumer got the bytes from `start` to `stop`, closed by a NUL. -/
def Gets (consume : σ → ByteMemory → Int → Option (σ × ByteMemory × α)) (mem : ByteMemory)
    (buf : Int) (d : Delivery α) : Prop :=
  ∃ s m s' m', consume s m (buf + d.start) = some (s', m', d.result) ∧ m (buf + d.stop) = 0 ∧
    m.slice (buf + d.start) (d.stop - d.start).toNat =
      mem.slice (buf + d.start) (d.stop - d.start).toNat

/-- Calls of the consumer one behind the other between `a` and `b`, each with the bytes in front
of a `'\r'`. -/
inductive Placed (consume : σ → ByteMemory → Int → Option (σ × ByteMemory × α))
    (mem : ByteMemory) (buf : Int) : Int → List (Delivery α) → Int → Prop
  | nil {a b : Int} (h : a ≤ b) : Placed consume mem buf a [] b
  | cons {a b : Int} {d : Delivery α} {ds : List (Delivery α)} (start : a ≤ d.start)
      (stop : d.start ≤ d.stop) (closed : mem (buf + d.stop) = cr) (gets : Gets consume mem buf d)
      (rest : Placed consume mem buf (d.stop + 1) ds b) : Placed consume mem buf a (d :: ds) b

section Placed

variable {a a' b : Int} {ds : List (Delivery α)}

theorem Placed.le (h : Placed consume mem buf a ds b) : a ≤ b := by
  induction h with
  | nil h => exact h
  | cons start stop _ _ _ ih => omega

theorem Placed.mono (h : Placed consume mem buf a ds b) (hle : a' ≤ a) :
    Placed consume mem buf a' ds b := by
  cases h with
  | nil h => exact .nil (Int.le_trans hle h)
  | cons start stop closed gets rest =>
    exact .cons (Int.le_trans hle start) stop closed gets rest

/-- Only the bytes from `a` on count. -/
theorem Placed.congr (h : Placed consume mem' buf a ds b)
    (hsame : ∀ x, buf + a ≤ x → mem' x = mem x) : Placed consume mem buf a ds b := by
  induction h with
  | nil h => exact .nil h
  | cons start stop closed gets _ ih =>
    obtain ⟨t, m, t', m', hrun, hnul, hslice⟩ := gets
    refine .cons start stop ?_ ⟨t, m, t', m', hrun, hnul, hslice.trans ?_⟩ (ih ?_)
    · rw [← hsame _ (by omega)]
      exact closed
    · exact slice_congr fun x hx _ => hsame x (by omega)
    · exact fun x hx => hsame x (by omega)

theorem Placed.inside (h : Placed consume mem buf a ds b) :
    ∀ d ∈ ds, a ≤ d.start ∧ d.start ≤ d.stop ∧ d.stop < b ∧ mem (buf + d.stop) = cr ∧
      Gets consume mem buf d := by
  induction h with
  | nil => exact fun d hd => absurd hd List.not_mem_nil
  | cons start stop closed gets rest ih =>
    intro d hd
    rcases List.mem_cons.1 hd with rfl | hd
    · have hle := rest.le
      exact ⟨start, stop, by omega, closed, gets⟩
    · obtain ⟨hstart, hrest⟩ := ih d hd
      exact ⟨by omega, hrest⟩

theorem Placed.pairwise (h : Placed consume mem buf a ds b) :
    ds.Pairwise fun d e => d.stop < e.start := by
  induction h with
  | nil => exact List.Pairwise.nil
  | cons start stop closed gets rest ih =>
    refine List.pairwise_cons.2 ⟨fun e he => ?_, ih⟩
    have hstart := (rest.inside e he).1
    omega

end Placed

/-- A call of the consumer with the string from `istart` on, which the NUL at `i` closes. -/
theorem Consumes.delivers {len : Nat} (hconsume : Consumes consume len) {result : α}
    (hle : istart ≤ i) (hlen : i - istart < len)
    (hrun : consume s (mem.set (buf + i) 0) (buf + istart) = some (s', mem', result)) :
    Gets consume mem buf ⟨istart, i, result⟩ ∧ ∀ x, buf + (i + 1) ≤ x → mem' x = mem x := by
  have hplace : buf + istart + ((i - istart).toNat : Int) = buf + i := by omega
  have hframe := hconsume s (mem.set (buf + i) 0) (buf + istart) (i - istart).toNat (by omega)
    (by rw [hplace]; exact set_self _ _) s' mem' result hrun
  constructor
  · refine ⟨s, mem.set (buf + i) 0, s', mem', hrun, set_self _ _, slice_congr fun x _ hx => ?_⟩
    exact set_of_ne 0 (by dsimp only at hx; omega)
  · intro x hx
    rw [hframe x (by omega)]
    exact set_of_ne 0 (by omega)

/-- The loop, from where it stands at `i`: behind `istart` it has met no `'\r'`. -/
theorem splitLoopWith_placed {len : Nat} (hconsume : Consumes consume len) (buf : Int)
    (fuel : Nat) : ∀ (s : σ) (mem : ByteMemory) (i istart : Int) (out : List (Delivery α)),
      0 ≤ istart → istart ≤ i → istart ≤ len → len ≤ i + fuel →
      NoCr mem buf (min i len) (istart + 1) → ∀ s' mem' r ds',
      splitLoopWith consume buf len fuel s mem i istart out = some (s', mem', r, ds') →
      ∃ ds, ds' = out ++ ds ∧ Placed consume mem buf istart ds r ∧ r ≤ len ∧
        NoCr mem' buf len (r + 1) := by
  -- Where the loop stops nothing more is delivered.
  have stops : ∀ (s : σ) (mem : ByteMemory) (i istart : Int) (out : List (Delivery α)),
      istart ≤ len → len ≤ i → NoCr mem buf (min i len) (istart + 1) → ∀ s' mem' r ds',
      some (s, mem, istart, out) = some (s', mem', r, ds') →
      ∃ ds, ds' = out ++ ds ∧ Placed consume mem buf istart ds r ∧ r ≤ len ∧
        NoCr mem' buf len (r + 1) := by
    rintro s mem i istart out hlen hstop hcr _ _ _ _ ⟨rfl⟩
    rw [Int.min_eq_right hstop] at hcr
    exact ⟨[], (List.append_nil _).symm, .nil (Int.le_refl _), hlen, hcr⟩
  induction fuel with
  | zero =>
    intro s mem i istart out _ _ hlen hfuel hcr
    rw [splitLoopWith, if_neg (by omega)]
    exact stops s mem i istart out hlen (by omega) hcr
  | succ fuel ih =>
    intro s mem i istart out hnonneg hle hlen hfuel hcr s' mem' r ds' hloop
    rw [splitLoopWith] at hloop
    by_cases hi : i < len
    · rw [if_pos hi] at hloop
      by_cases hmem : mem (buf + i) = cr
      · rw [if_pos hmem, Option.bind_eq_bind, Option.bind_eq_some_iff] at hloop
        obtain ⟨⟨s₁, mem₁, result⟩, hrun, hloop⟩ := hloop
        obtain ⟨hgets, hsame⟩ := hconsume.delivers hle (by omega) hrun
        -- What follows a delivery, with `istart` on `k`.
        have follows : ∀ k, i + 1 ≤ k → k ≤ len →
            splitLoopWith consume buf len fuel s₁ mem₁ (k + 1) k (out ++ [⟨istart, i, result⟩]) =
              some (s', mem', r, ds') →
            ∃ ds, ds' = out ++ ds ∧ Placed consume mem buf istart ds r ∧ r ≤ len ∧
              NoCr mem' buf len (r + 1) := by
          intro k hk hklen hnext
          obtain ⟨ds, hds, hplaced, hr, hleft⟩ := ih s₁ mem₁ (k + 1) k
            (out ++ [⟨istart, i, result⟩]) (by omega) (by omega) hklen (by omega)
            (fun x hx hxk => absurd hx (by omega)) s' mem' r ds' hnext
          refine ⟨⟨istart, i, result⟩ :: ds, ?_, ?_, hr, hleft⟩
          · rw [hds, List.append_assoc, List.singleton_append]
          · exact .cons (Int.le_refl _) hle hmem hgets
              ((hplaced.congr fun x hx => hsame x (by omega)).mono hk)
        dsimp only at hloop
        split at hloop
        · rename_i hlf
          exact follows (i + 1 + 1) (by omega) (by omega) hloop
        · exact follows (i + 1) (Int.le_refl _) (by omega) hloop
      · rw [if_neg hmem] at hloop
        refine ih s mem (i + 1) istart out hnonneg (by omega) hlen (by omega) ?_ s' mem' r ds' hloop
        intro x hx hxi
        by_cases hlast : x = i
        · rw [hlast]
          exact hmem
        · exact hcr x hx (by omega)
    · rw [if_neg hi] at hloop
      exact stops s mem i istart out hlen (by omega) hcr s' mem' r ds' hloop

/-- With a consumer that returns the loop does. -/
theorem splitLoopWith_isSome {len : Nat} (hreturns : Returns consume len) (buf : Int)
    (fuel : Nat) : ∀ (s : σ) (mem : ByteMemory) (i istart : Int) (out : List (Delivery α)),
      0 ≤ istart → istart ≤ i → len ≤ i + fuel →
      (splitLoopWith consume buf len fuel s mem i istart out).isSome := by
  induction fuel with
  | zero =>
    intro s mem i istart out _ _ hfuel
    rw [splitLoopWith, if_neg (by omega)]
    rfl
  | succ fuel ih =>
    intro s mem i istart out hnonneg hle hfuel
    rw [splitLoopWith]
    split
    · split
      · have hplace : buf + istart + ((i - istart).toNat : Int) = buf + i := by omega
        obtain ⟨⟨s₁, mem₁, result⟩, hrun⟩ := Option.isSome_iff_exists.1
          (hreturns s (mem.set (buf + i) 0) (buf + istart) (i - istart).toNat (by omega)
            (by rw [hplace]; exact set_self _ _))
        rw [hrun, Option.bind_eq_bind, Option.bind_some]
        dsimp only
        split
        · exact ih _ _ _ _ _ (by omega) (by omega) (by omega)
        · exact ih _ _ _ _ _ (by omega) (by omega) (by omega)
      · exact ih _ _ _ _ _ hnonneg (by omega) (by omega)
    · rfl

/-- What a call that returns `r` has delivered and left. -/
structure LeavesNoPacket (consume : σ → ByteMemory → Int → Option (σ × ByteMemory × α))
    (mem : ByteMemory) (buf len : Int) (s' : σ) (mem' : ByteMemory) (r : Int)
    (ds : List (Delivery α)) : Prop where
  result : 0 ≤ r ∧ r ≤ len
  /-- Calling it on the rest delivers nothing. -/
  next : ∃ r', parseBufWith consume s' mem' (buf + r) (len - r) = some (s', mem', r', [])
  /-- What is delivered lies in the bytes that are used, in front of a `'\r'`. -/
  inside : ∀ d ∈ ds, 0 ≤ d.start ∧ d.start ≤ d.stop ∧ d.stop < r ∧ mem (buf + d.stop) = cr ∧
    Gets consume mem buf d
  disjoint : ds.Pairwise fun d e => d.stop < e.start

/-- A call that returns. -/
theorem parseBufWith_leaves {len : Nat} (hconsume : Consumes consume len)
    (h : parseBufWith consume s mem buf len = some (s', mem', r, ds)) :
    LeavesNoPacket consume mem buf len s' mem' r ds := by
  have hfind := findDollar_spec mem buf len (len : Int).toNat 0 (Int.natCast_nonneg len)
    (by omega)
  rw [parseBufWith] at h
  generalize findDollar mem buf len (len : Int).toNat 0 = i at hfind h
  obtain ⟨hi, hilen, -⟩ := hfind
  by_cases hend : (len : Int) ≤ i
  · rw [if_pos hend] at h
    obtain ⟨rfl⟩ := h
    refine ⟨⟨Int.natCast_nonneg len, Int.le_refl _⟩, ?_,
      fun d hd => absurd hd List.not_mem_nil, List.Pairwise.nil⟩
    exact parseBufWith_noCr (by omega) fun x hx hxlen => absurd hx (by omega)
  · rw [if_neg hend] at h
    obtain ⟨ds, rfl, hplaced, hr, hleft⟩ := splitLoopWith_placed hconsume buf _ s mem i i [] hi
      (Int.le_refl i) hilen (by omega) (fun x hx hxi => absurd hx (by omega)) _ _ _ _ h
    have hle := hplaced.le
    refine ⟨⟨by omega, hr⟩, ?_, (hplaced.mono hi).inside, hplaced.pairwise⟩
    refine parseBufWith_noCr (by omega) fun x hx hxlen => ?_
    rw [Int.add_assoc]
    exact hleft (r + x) (by omega) (by omega)

/-- With any consumer that keeps to its string, a call that returns leaves no packet that the next
call would deliver; it returns if the consumer does. -/
theorem parseBufWith_leavesNoPacket {len : Nat} (hconsume : Consumes consume len) (s : σ)
    (mem : ByteMemory) (buf : Int) :
    (∀ s' mem' r ds, parseBufWith consume s mem buf len = some (s', mem', r, ds) →
      LeavesNoPacket consume mem buf len s' mem' r ds) ∧
    (Returns consume len → ∃ s' mem' r ds,
      parseBufWith consume s mem buf len = some (s', mem', r, ds)) := by
  refine ⟨fun s' mem' r ds => parseBufWith_leaves hconsume, fun hreturns => ?_⟩
  have hfind := findDollar_spec mem buf len (len : Int).toNat 0 (Int.natCast_nonneg len)
    (by omega)
  rw [parseBufWith]
  generalize findDollar mem buf len (len : Int).toNat 0 = i at hfind ⊢
  obtain ⟨hi, hilen, -⟩ := hfind
  by_cases hend : (len : Int) ≤ i
  · rw [if_pos hend]
    exact ⟨s, mem, len, [], rfl⟩
  · rw [if_neg hend]
    obtain ⟨⟨s', mem', r, ds⟩, hloop⟩ := Option.isSome_iff_exists.1
      (splitLoopWith_isSome hreturns buf ((len : Int) - i).toNat s mem i i [] hi (Int.le_refl i)
        (by omega))
    exact ⟨s', mem', r, ds, hloop⟩

/-- A line end is doubled: the second `'\r'` is left. -/
theorem parseBufWith_leavesNoPacket_doubled : ∃ s' mem' r ds,
    parseBufWith (parsePacket ⟨default, fun _ => false⟩) Globals.init
        (store (fun _ => 0) 0 [dollar, ascii 'A', cr, cr, ascii 'B']) 0 5 =
        some (s', mem', r, ds) ∧
      LeavesNoPacket (parsePacket ⟨default, fun _ => false⟩)
        (store (fun _ => 0) 0 [dollar, ascii 'A', cr, cr, ascii 'B']) 0 5 s' mem' r ds := by
  refine ⟨_, _, _, _, rfl, ?_⟩
  exact (parseBufWith_leavesNoPacket ((parsePacket_consumes _).mono (by decide)) _ _ 0).1
    _ _ _ _ rfl

end ReadGps
end CFunction
