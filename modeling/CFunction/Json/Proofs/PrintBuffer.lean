import CFunction.Json.Render

/-!
# What the printer writes to its buffer

Every part of the printer either has written its text behind what was there, or has failed at an
exit that says why: an allocation of bounded size was refused, a buffer of the caller is full, or
the text is longer than `INT_MAX`.
-/

namespace CFunction
namespace Json

open CString

variable {ν : Type} {hooks : Hooks} {p p' : PrintBuffer} {n m : Nat} {done s : Bytes}

/-- A later buffer of the same call, which only its own allocations have made longer. -/
structure Frame (p p' : PrintBuffer) : Prop where
  noalloc : p'.noalloc = p.noalloc
  format : p'.format = p.format
  length : p'.buffer.length = p.buffer.length ∨
    p.noalloc = false ∧ p.buffer.length ≤ p'.buffer.length

theorem Frame.length_le (h : Frame p p') : p.buffer.length ≤ p'.buffer.length := by
  rcases h.length with hsame | ⟨-, hle⟩
  · exact Nat.le_of_eq hsame.symm
  · exact hle

/-- A buffer of the caller keeps its length. -/
theorem Frame.length_eq (h : Frame p p') (hno : p.noalloc = true) :
    p'.buffer.length = p.buffer.length := by
  rcases h.length with hsame | ⟨halloc, -⟩
  · exact hsame
  · rw [hno] at halloc
    cases halloc

theorem Frame.refl (p : PrintBuffer) : Frame p p := ⟨rfl, rfl, Or.inl rfl⟩

theorem Frame.trans {p'' : PrintBuffer} (h : Frame p p') (h' : Frame p' p'') : Frame p p'' := by
  refine ⟨h'.noalloc.trans h.noalloc, h'.format.trans h.format, ?_⟩
  cases hno : p.noalloc with
  | false => exact Or.inr ⟨rfl, Nat.le_trans h.length_le h'.length_le⟩
  | true => exact Or.inl ((h'.length_eq (h.noalloc.trans hno)).trans (h.length_eq hno))

/-- An allocation of at most `bound` bytes was refused. -/
def Refused (hooks : Hooks) (bound : Nat) (failure : Failure) : Prop :=
  ∃ asked size, failure = .allocation asked size ∧ hooks.allocate asked size = false ∧ size ≤ bound

theorem Refused.mono {failure : Failure} (h : Refused hooks n failure) (hle : n ≤ m) :
    Refused hooks m failure := by
  obtain ⟨asked, size, heq, hrefused, hsize⟩ := h
  exact ⟨asked, size, heq, hrefused, Nat.le_trans hsize hle⟩

/-- Why a buffer has not got `n` bytes. -/
inductive Lacks (hooks : Hooks) (p : PrintBuffer) (n : Nat) (failure : Failure) : Prop where
  | memory (alloc : p.noalloc = false) (refused : Refused hooks (n * 2) failure)
  | tooLong (eq : failure = .tooLong) (long : intMax < n)
  | full (eq : failure = .full) (noalloc : p.noalloc = true) (short : p.buffer.length < n)

theorem Lacks.mono {failure : Failure} (hf : Frame p p') (hle : n ≤ m)
    (h : Lacks hooks p' n failure) : Lacks hooks p m failure := by
  rcases h with ⟨halloc, hrefused⟩ | ⟨heq, hlong⟩ | ⟨heq, hno, hshort⟩
  · exact .memory (hf.noalloc.symm.trans halloc) (hrefused.mono (by omega))
  · exact .tooLong heq (by omega)
  · have := hf.length_le
    exact .full heq (hf.noalloc.symm.trans hno) (by omega)

/-- A buffer with `Q`, or a failure for want of `n` bytes. -/
def Gives (hooks : Hooks) (p : PrintBuffer) (n : Nat) (result : Except PrintStop PrintBuffer)
    (Q : PrintBuffer → Prop) : Prop :=
  (∃ p', result = .ok p' ∧ Frame p p' ∧ Q p') ∨
    ∃ failure, result = .error (.failed failure) ∧ Lacks hooks p n failure

theorem Gives.of_ok {result : Except PrintStop PrintBuffer} {Q : PrintBuffer → Prop}
    (h : result = .ok p') (hf : Frame p p') (hQ : Q p') : Gives hooks p n result Q :=
  Or.inl ⟨p', h, hf, hQ⟩

theorem Gives.more {result : Except PrintStop PrintBuffer} {Q : PrintBuffer → Prop}
    (h : Gives hooks p n result Q) (hle : n ≤ m) : Gives hooks p m result Q := by
  rcases h with h | ⟨failure, hfail, hlacks⟩
  · exact Or.inl h
  · exact Or.inr ⟨failure, hfail, hlacks.mono (Frame.refl p) hle⟩

theorem Gives.imp {result : Except PrintStop PrintBuffer} {Q R : PrintBuffer → Prop}
    (h : Gives hooks p n result Q) (hQR : ∀ p', Frame p p' → Q p' → R p') :
    Gives hooks p n result R := by
  rcases h with ⟨p', hok, hf, hQ⟩ | hfail
  · exact Or.inl ⟨p', hok, hf, hQR p' hf hQ⟩
  · exact Or.inr hfail

theorem Gives.frame {result : Except PrintStop PrintBuffer} {Q : PrintBuffer → Prop}
    (hf : Frame p p') (h : Gives hooks p' n result Q) : Gives hooks p n result Q := by
  rcases h with ⟨q, hok, hf', hQ⟩ | ⟨failure, hfail, hlacks⟩
  · exact Or.inl ⟨q, hok, hf.trans hf', hQ⟩
  · exact Or.inr ⟨failure, hfail, hlacks.mono hf (Nat.le_refl n)⟩

theorem Gives.bind {result : Except PrintStop PrintBuffer} {Q R : PrintBuffer → Prop}
    {next : PrintBuffer → Except PrintStop PrintBuffer} (h : Gives hooks p n result Q)
    (hnext : ∀ p', Frame p p' → Q p' → Gives hooks p' n (next p') R) :
    Gives hooks p n (result >>= next) R := by
  rcases h with ⟨p', rfl, hf, hQ⟩ | ⟨failure, rfl, hlacks⟩
  · exact (hnext p' hf hQ).frame hf
  · exact Or.inr ⟨failure, rfl, hlacks⟩

/-- `done` has been written, and the output goes on behind it. A buffer may be empty when
`realloc` makes it longer, or nothing does. -/
structure At (hooks : Hooks) (p : PrintBuffer) (done : Bytes) : Prop where
  offset : p.offset = done.length
  written : done <+: p.buffer
  room : p.offset < p.buffer.length ∨
    p.buffer = [] ∧ (hooks.reallocate = true ∨ p.noalloc = true)

/-- A value has been written behind `done`, and the offset is in it or behind it. -/
structure Written (p : PrintBuffer) (done s : Bytes) : Prop where
  start : done.length ≤ p.offset
  stop : p.offset ≤ (done ++ s).length
  written : done ++ s ++ [0] <+: p.buffer

/-! ### The buffer -/

theorem length_block (hooks : Hooks) (size : Nat) : (hooks.block size).length = size := by
  rw [Hooks.block, List.length_map, List.length_range]

/-- The offset is in the new buffer, and what was written is there. -/
theorem At.grown (hat : At hooks p done) (halloc : p.noalloc = false) (asked : List Nat)
    {buffer : Bytes} (hdone : done <+: buffer) (hle : p.buffer.length ≤ buffer.length)
    (hroom : done.length < buffer.length) :
    Frame p { p with asked := asked, buffer := buffer } ∧
      At hooks { p with asked := asked, buffer := buffer } done :=
  ⟨⟨rfl, rfl, Or.inr ⟨halloc, hle⟩⟩, hat.offset, hdone, Or.inl (hat.offset ▸ hroom)⟩

theorem grow_gives (hat : At hooks p done) {needed newsize : Nat} (halloc : p.noalloc = false)
    (hlow : p.buffer.length < needed) (hnew : needed ≤ newsize) (hdone : done.length < needed)
    (htwice : newsize ≤ needed * 2) :
    Gives hooks p needed (grow hooks p newsize) fun p' =>
      p'.depth = p.depth ∧ At hooks p' done ∧ needed ≤ p'.buffer.length := by
  have hblock := length_block hooks newsize
  have hoffset := hat.offset
  unfold grow
  split
  · rename_i hrefused
    rw [Bool.not_eq_true] at hrefused
    exact Or.inr ⟨_, rfl, .memory halloc ⟨_, _, rfl, hrefused, htwice⟩⟩
  split
  · have hlen : (p.buffer ++ (hooks.block newsize).drop p.buffer.length).length = newsize := by
      rw [List.length_append, List.length_drop, hblock]
      omega
    have hpre := hat.written.trans
      (List.prefix_append p.buffer ((hooks.block newsize).drop p.buffer.length))
    obtain ⟨hf, hat'⟩ := hat.grown halloc (newsize :: p.asked) hpre (by omega) (by omega)
    exact Gives.of_ok rfl hf ⟨rfl, hat', Nat.le_trans hnew (Nat.le_of_eq hlen.symm)⟩
  · rename_i hre
    have hlt : p.offset < p.buffer.length := by
      rcases hat.room with hlt | ⟨-, hre' | hno⟩
      · exact hlt
      · exact absurd hre' hre
      · rw [halloc] at hno
        cases hno
    rw [if_pos (by omega)]
    have hlen : (p.buffer.take (p.offset + 1) ++
        (hooks.block newsize).drop (p.offset + 1)).length = newsize := by
      rw [List.length_append, List.length_take, List.length_drop, hblock]
      omega
    have hpre : done <+: p.buffer.take (p.offset + 1) ++
        (hooks.block newsize).drop (p.offset + 1) :=
      (List.prefix_take_iff.2 ⟨hat.written, by omega⟩).trans (List.prefix_append _ _)
    obtain ⟨hf, hat'⟩ := hat.grown halloc (newsize :: p.asked) hpre (by omega) (by omega)
    exact Gives.of_ok rfl hf ⟨rfl, hat', Nat.le_trans hnew (Nat.le_of_eq hlen.symm)⟩

/-- `ensure` makes room and keeps what was written. -/
theorem ensure_gives (hat : At hooks p done) (needed : Nat) :
    Gives hooks p (done.length + needed + 1) (ensure hooks p needed) fun p' =>
      p'.depth = p.depth ∧ At hooks p' done ∧ done.length + needed + 1 ≤ p'.buffer.length := by
  have hoffset := hat.offset
  have hmax : intMax = 2147483647 := rfl
  unfold ensure
  split
  · rename_i hbad
    rcases hat.room with hlt | ⟨hnil, -⟩
    · omega
    · rw [hnil] at hbad
      exact absurd hbad.1 (Nat.lt_irrefl 0)
  split
  · exact Or.inr ⟨_, rfl, .tooLong rfl (by omega)⟩
  dsimp only
  rw [show needed + (p.offset + 1) = done.length + needed + 1 by omega]
  split
  · rename_i hfits
    exact Gives.of_ok rfl (Frame.refl p) ⟨rfl, hat, hfits⟩
  rename_i hlow
  rw [Nat.not_le] at hlow
  split
  · rename_i hno
    exact Or.inr ⟨_, rfl, .full rfl hno hlow⟩
  rename_i halloc
  rw [Bool.not_eq_true] at halloc
  split
  · split
    · rename_i hle
      exact grow_gives hat halloc hlow hle (by omega) (by omega)
    · exact Or.inr ⟨_, rfl, .tooLong rfl (by omega)⟩
  · exact grow_gives hat halloc hlow (by omega) (by omega) (Nat.le_refl _)

theorem overwrite_prefix {buf pre bytes : Bytes} (hpre : pre <+: buf)
    (hroom : pre.length + bytes.length ≤ buf.length) :
    ∃ buf', overwrite buf pre.length bytes = some buf' ∧ buf'.length = buf.length ∧
      pre ++ bytes <+: buf' := by
  refine ⟨_, if_pos hroom, length_overwrite (if_pos hroom), ?_⟩
  rw [← List.prefix_iff_eq_take.1 hpre]
  exact List.prefix_append _ _

/-- Bytes written behind those that are there. -/
theorem put_eq {pre bytes : Bytes} {i : Nat} (hoffset : p.offset + i = pre.length)
    (hpre : pre <+: p.buffer) (hroom : pre.length + bytes.length ≤ p.buffer.length) :
    ∃ buffer, put p i bytes = .ok { p with buffer := buffer } ∧
      buffer.length = p.buffer.length ∧ pre ++ bytes <+: buffer := by
  obtain ⟨buffer, hover, hlen, hwritten⟩ := overwrite_prefix hpre hroom
  refine ⟨buffer, ?_, hlen, hwritten⟩
  rw [put, hoffset, hover]

/-- Bytes written at the output. -/
theorem put_at {bytes : Bytes} (hat : At hooks p done)
    (hroom : done.length + bytes.length ≤ p.buffer.length) :
    ∃ buffer, put p 0 bytes = .ok { p with buffer := buffer } ∧
      buffer.length = p.buffer.length ∧ done ++ bytes <+: buffer :=
  put_eq hat.offset hat.written hroom

/-- `update_offset` goes to the end of a value without a NUL. -/
theorem updateOffset_eq (h : Written p done s) (hs : 0 ∉ s) :
    updateOffset p = .ok { p with offset := (done ++ s).length } ∧
      At hooks { p with offset := (done ++ s).length } (done ++ s) := by
  obtain ⟨t, ht⟩ := h.written
  obtain ⟨k, hk⟩ := Nat.exists_eq_add_of_le h.start
  have hstop := h.stop
  rw [hk, List.length_append] at hstop
  have hdrop : p.buffer.drop p.offset = s.drop k ++ 0 :: t := by
    rw [← ht, hk, List.append_assoc, List.append_assoc, List.drop_length_add_append,
      List.drop_append_of_le_length (by omega)]
    rfl
  have hlen : strlen (p.buffer.drop p.offset) = some (s.length - k) := by
    rw [hdrop, strlen_append_nul _ fun hmem => hs (List.mem_of_mem_drop hmem), List.length_drop]
  refine ⟨?_, rfl, (List.prefix_append _ _).trans h.written, Or.inl ?_⟩
  · simp only [updateOffset, hlen, List.length_append]
    rw [show p.offset + (s.length - k) = done.length + s.length by omega]
  · have := h.written.length_le
    rwa [List.length_append, List.length_singleton] at this

/-! ### Numbers -/

theorem printNumber_gives (hat : At hooks p done) {number : Bytes} (hfits : number.length < 26) :
    Gives hooks p (done.length + number.length + 2) (printNumber hooks p number) fun p' =>
      p'.depth = p.depth ∧ Written p' done number := by
  have hbuffer : numberBuffer number = .ok number := if_pos hfits
  rw [printNumber, hbuffer]
  refine ((ensure_gives hat (number.length + 1)).more (by omega)).bind fun q _ hq => ?_
  obtain ⟨hdepth, hat', hlen⟩ := hq
  have hroom : done.length + (number ++ [0]).length ≤ q.buffer.length := by
    rw [List.length_append, List.length_singleton]
    omega
  obtain ⟨buffer, hput, hsame, hwritten⟩ := put_at hat' hroom
  rw [hput]
  have hoffset := hat'.offset
  refine Gives.of_ok rfl ⟨rfl, rfl, Or.inl hsame⟩ ⟨hdepth, ?_, ?_, ?_⟩
  · dsimp only
    omega
  · rw [List.length_append]
    dsimp only
    omega
  · rw [List.append_assoc]
    exact hwritten

/-! ### Strings -/

/-- The characters of a string in the output. -/
def escaped (s : Bytes) : Bytes := s.flatMap fun c => (escape c).1

/-- The escapes of two characters: the second one, and what it stands for. -/
def shortEscapes : List (UInt8 × UInt8) :=
  [(ascii 'b', 8), (ascii 'f', 12), (ascii 'n', 10), (ascii 'r', 13), (ascii 't', 9),
    (ascii '"', ascii '"'), (ascii '\\', ascii '\\')]

/-- A character is copied, or has a short escape, or is written by its code. -/
inductive EscapeKind (c : UInt8) : Prop where
  | plain (count : escapeCharacters c = 0) (eq : escape c = ([c], false))
    (quote : c ≠ ascii '"') (backslash : c ≠ ascii '\\') : EscapeKind c
  | short (count : escapeCharacters c = 1) (e : UInt8) (mem : (e, c) ∈ shortEscapes)
    (eq : escape c = ([ascii '\\', e], false)) : EscapeKind c
  | code (count : escapeCharacters c = 5) (control : c.toNat < 32)
    (eq : escape c =
      (ascii '\\' :: text "u00" ++ [hexDigit (c.toNat / 16), hexDigit (c.toNat % 16)], true)) :
    EscapeKind c

theorem escapeKind (c : UInt8) : EscapeKind c := by
  have h31 : (31 : UInt8).toNat = 31 := rfl
  have h32 : (32 : UInt8).toNat = 32 := rfl
  by_cases hspecial : ∃ e, (e, c) ∈ shortEscapes
  · obtain ⟨e, he⟩ := hspecial
    refine .short ?_ e he ?_ <;>
      · simp only [shortEscapes, List.mem_cons, List.not_mem_nil, or_false, Prod.mk.injEq] at he
        rcases he with he | he | he | he | he | he | he <;> (obtain ⟨rfl, rfl⟩ := he; rfl)
  · simp only [shortEscapes, List.mem_cons, List.not_mem_nil, or_false, Prod.mk.injEq,
      exists_or, exists_eq_left, not_or] at hspecial
    obtain ⟨h8, h12, h10, h13, h9, hquote, hback⟩ := hspecial
    have hcount : escapeCharacters c = if c < 32 then 5 else 0 := by
      rw [escapeCharacters, if_neg]
      simp only [h8, h12, h10, h13, h9, hquote, hback, or_self, not_false_eq_true]
    by_cases hcontrol : c < 32
    · have hlow : ¬ (31 < c ∧ c ≠ ascii '"' ∧ c ≠ ascii '\\') := fun h => by
        have := h.1
        rw [UInt8.lt_iff_toNat_lt] at this hcontrol
        omega
      refine .code (by rw [hcount, if_pos hcontrol]) (UInt8.lt_iff_toNat_lt.1 hcontrol) ?_
      rw [escape, if_neg hlow, if_neg hback, if_neg hquote, if_neg h8, if_neg h12, if_neg h10,
        if_neg h13, if_neg h9]
    · have hhigh : 31 < c := by
        rw [UInt8.lt_iff_toNat_lt] at hcontrol ⊢
        omega
      refine .plain (by rw [hcount, if_neg hcontrol]) ?_ hquote hback
      rw [escape, if_pos ⟨hhigh, hquote, hback⟩]

theorem length_escape (c : UInt8) : (escape c).1.length = 1 + escapeCharacters c := by
  rcases escapeKind c with ⟨hcount, heq⟩ | ⟨hcount, e, -, heq⟩ | ⟨hcount, -, heq⟩
  · rw [heq, hcount]
    rfl
  · rw [heq, hcount]
    rfl
  · rw [heq, hcount]
    rfl

theorem escape_plain {c : UInt8} (h : escapeCharacters c = 0) : (escape c).1 = [c] := by
  rcases escapeKind c with ⟨-, heq⟩ | ⟨hcount, -⟩ | ⟨hcount, -⟩
  · rw [heq]
  · omega
  · omega

theorem foldl_add (l : List Nat) (a : Nat) : l.foldl (· + ·) a = a + l.foldl (· + ·) 0 := by
  induction l generalizing a with
  | nil => rfl
  | cons b l ih =>
    rw [List.foldl_cons, ih, List.foldl_cons, ih (0 + b), Nat.zero_add, Nat.add_assoc]

/-- The length that `print_string_ptr` counts. -/
theorem length_escaped (s : Bytes) :
    (escaped s).length = s.length + (s.map escapeCharacters).foldl (· + ·) 0 := by
  induction s with
  | nil => rfl
  | cons c s ih =>
    rw [escaped, List.flatMap_cons, List.length_append, length_escape, ← escaped, ih, List.map_cons,
      List.foldl_cons, foldl_add _ (0 + _), List.length_cons]
    omega

theorem escaped_plain {s : Bytes} (h : (s.map escapeCharacters).foldl (· + ·) 0 = 0) :
    escaped s = s := by
  induction s with
  | nil => rfl
  | cons c s ih =>
    rw [List.map_cons, List.foldl_cons, foldl_add] at h
    rw [escaped, List.flatMap_cons, escape_plain (by omega), ← escaped, ih (by omega)]
    rfl

/-- The loop writes the escaped string, and may write one NUL behind it. -/
theorem putEscaped_eq {pre input : Bytes} {i : Nat} (hoffset : p.offset + i = pre.length)
    (hpre : pre <+: p.buffer)
    (hroom : pre.length + (escaped input).length + 1 ≤ p.buffer.length) :
    ∃ buffer, putEscaped p i input = .ok { p with buffer := buffer } ∧
      buffer.length = p.buffer.length ∧ pre ++ escaped input <+: buffer := by
  induction input generalizing p pre i with
  | nil =>
    refine ⟨p.buffer, rfl, rfl, ?_⟩
    rwa [escaped, List.flatMap_nil, List.append_nil]
  | cons c input ih =>
    have hsplit : escaped (c :: input) = (escape c).1 ++ escaped input := List.flatMap_cons
    rw [hsplit, List.length_append] at hroom
    have hwrite : (if (escape c).2 then (escape c).1 ++ [0] else (escape c).1).length ≤
        (escape c).1.length + 1 := by
      split
      · rw [List.length_append, List.length_singleton]
      · exact Nat.le_succ _
    obtain ⟨buffer, hput, hlen, hwritten⟩ := put_eq hoffset hpre
      (show pre.length + _ ≤ p.buffer.length from Nat.le_trans (Nat.add_le_add_left hwrite _)
        (by omega))
    have hpre' : pre ++ (escape c).1 <+: buffer := by
      refine List.IsPrefix.trans ?_ hwritten
      split
      · rw [← List.append_assoc]
        exact List.prefix_append _ _
      · exact List.prefix_rfl
    obtain ⟨buffer', hrest, hlen', hwritten'⟩ :=
      @ih { p with buffer := buffer } (pre ++ (escape c).1) (i + (escape c).1.length)
        (by rw [List.length_append]; dsimp only; omega) hpre'
        (by rw [List.length_append]; dsimp only; omega)
    refine ⟨buffer', ?_, hlen'.trans hlen, ?_⟩
    · rw [putEscaped]
      simp only [hput, bind, Except.bind]
      exact hrest
    · rw [hsplit, ← List.append_assoc]
      exact hwritten'

theorem renderString_eq (s : Bytes) : renderString s = ascii '"' :: escaped s ++ [ascii '"'] := rfl

theorem length_renderString (s : Bytes) : (renderString s).length = (escaped s).length + 2 := by
  rw [renderString_eq, List.length_append, List.length_cons, List.length_singleton]

theorem printString_gives (hat : At hooks p done) (input : Bytes) :
    Gives hooks p (done.length + (renderString input).length + 2) (printString hooks p input)
      fun p' => p'.depth = p.depth ∧ Written p' done (renderString input) := by
  have hcount := length_escaped input
  rw [length_renderString, printString, ← hcount]
  refine ((ensure_gives hat ((escaped input).length + 3)).more (by omega)).bind fun q _ hq => ?_
  obtain ⟨hdepth, hat', hlen⟩ := hq
  have hoffset := hat'.offset
  have hdone : ∀ buffer : Bytes, buffer.length = q.buffer.length →
      done ++ renderString input ++ [0] <+: buffer →
      Gives hooks q (done.length + ((escaped input).length + 2) + 2)
        (.ok { q with buffer := buffer }) fun p' =>
          p'.depth = p.depth ∧ Written p' done (renderString input) := by
    intro buffer hsame hwritten
    refine Gives.of_ok rfl ⟨rfl, rfl, Or.inl hsame⟩ ⟨hdepth, ?_, ?_, hwritten⟩
    · exact Nat.le_of_eq hoffset.symm
    · rw [List.length_append]
      dsimp only
      omega
  split
  · rename_i hzero
    rw [escaped_plain hzero] at hlen
    have hroom : done.length + (ascii '"' :: input ++ [ascii '"', 0]).length ≤
        q.buffer.length := by
      rw [List.length_append, List.length_cons, List.length_cons, List.length_singleton]
      omega
    obtain ⟨buffer, hput, hsame, hwritten⟩ := put_at hat' hroom
    rw [hput]
    refine hdone buffer hsame ?_
    rw [renderString_eq, escaped_plain hzero]
    simpa using hwritten
  · have hone : done.length + [ascii '"'].length ≤ q.buffer.length := by
      rw [List.length_singleton]
      omega
    obtain ⟨buffer, hput, hsame, hwritten⟩ := put_at hat' hone
    have hopen : q.offset + 1 = (done ++ [ascii '"']).length := by
      rw [List.length_append, List.length_singleton, hoffset]
    have hbody : (done ++ [ascii '"']).length + (escaped input).length + 1 ≤ buffer.length := by
      rw [← hopen]
      omega
    obtain ⟨buffer', hloop, hsame', hwritten'⟩ :=
      @putEscaped_eq { q with buffer := buffer } (done ++ [ascii '"']) input 1 hopen hwritten hbody
    have hclose : q.offset + ((escaped input).length + 1) =
        (done ++ [ascii '"'] ++ escaped input).length := by
      rw [List.length_append, ← hopen]
      omega
    have hend : (done ++ [ascii '"'] ++ escaped input).length + [ascii '"', (0 : UInt8)].length ≤
        buffer'.length := by
      have hsame' : buffer'.length = buffer.length := hsame'
      rw [← hclose, List.length_cons, List.length_singleton]
      omega
    obtain ⟨buffer'', hquote, hsame'', hwritten''⟩ :=
      @put_eq { q with buffer := buffer' } (done ++ [ascii '"'] ++ escaped input)
        [ascii '"', 0] ((escaped input).length + 1) hclose hwritten' hend
    simp only [hput, hloop, hquote, bind, Except.bind]
    refine hdone buffer'' (hsame''.trans (hsame'.trans hsame)) ?_
    rw [renderString_eq]
    simpa using hwritten''

end Json
end CFunction
