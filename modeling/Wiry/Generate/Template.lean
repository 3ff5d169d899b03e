/-
`crates/wiry-py/src/template.rs`, and the senders of `crates/wiry-py/src/live.rs` that walk a template
chunk by chunk.

What a stack of layers builds from its field values is a parameter, as is what putting a frame on the
wire does; the generator every volatile value is drawn from is the state. The pause between two frames
is left out.
-/
import Mathlib
import Wiry.Generate.Enumerate

set_option autoImplicit false

namespace Wiry.Generate

abbrev Bytes := List UInt8

/-- Caps what one call allocates. -/
def MAX_CHUNK : ℕ := 1 <<< 16

/-- Bounds how much of a template is in memory at once. -/
def SEND_CHUNK : ℕ := 256

/-- The fixed fields of a template's layers, and its generators. -/
structure Template where
  ints : List (ℕ × List Char × UInt64)
  strs : List (ℕ × List Char × List Char)
  raws : List (ℕ × List Char × Bytes)
  plan : Plan

/-- The fields that a packet is built with. -/
structure Fields where
  ints : List (ℕ × List Char × UInt64)
  strs : List (ℕ × List Char × List Char)
  raws : List (ℕ × List Char × Bytes)

namespace Template

variable (T : Template)

/-- The fields of one packet: the template's, then what its generators gave. -/
def fields (values : List (ℕ × List Char × GenVal)) : Fields :=
  values.foldl (fun fs x => match x.2.2 with
    | .Uint n => { fs with ints := fs.ints ++ [(x.1, x.2.1, n)] }
    | .Text s => { fs with strs := fs.strs ++ [(x.1, x.2.1, s)] }
    | .Bytes b => { fs with raws := fs.raws ++ [(x.1, x.2.1, b)] }) ⟨T.ints, T.strs, T.raws⟩

def total : ℕ := T.plan.count

/-- Where a call for `limit` packets from `start` begins and ends. -/
def window (start limit : ℕ) : ℕ × ℕ :=
  let n := T.plan.count
  let first := min start n
  (first, min (saturating_add first (min limit MAX_CHUNK)) n)

section Sending

variable {N : Type → Type} [Monad N] {E : Type} [MonadExceptOf E N]
variable (build : Fields → Except E Bytes)

def frame_at (index : ℕ) : StateT Rng N Bytes := do
  let values ← modifyGet (T.plan.values_at index)
  match build (T.fields values) with
  | .ok frame => pure frame
  | .error e => throwThe E e

def raw_frames (start limit : ℕ) : StateT Rng N (List Bytes) :=
  let w := T.window start limit
  (List.range' w.1 (w.2 - w.1)).mapM (T.frame_at build)

variable (put : Bytes → StateT Rng N Unit) (check_signals : StateT Rng N Unit)

/-- One round over the frames, as `one_run` makes `count` of. -/
def send_all : List Bytes → ℕ → StateT Rng N ℕ
  | [], sent => pure sent
  | f :: frames, sent => do
    put f
    send_all frames (sent + 1)

/-- `one_run`, from `sent` on. -/
def one_run (frames : List Bytes) : ℕ → ℕ → StateT Rng N ℕ
  | 0, sent => pure sent
  | count + 1, sent => do
    let sent ← send_all put frames sent
    one_run frames count sent

/-- The inner loop of `stream_template`, from `at_` on. -/
def stream_from (at_ sent : ℕ) : StateT Rng N ℕ :=
  if at_ < T.total then do
    let chunk ← T.raw_frames build at_ SEND_CHUNK
    let n ← one_run put chunk 1 0
    check_signals
    stream_from (at_ + max chunk.length 1) (sent + n)
  else pure sent
termination_by T.total - at_
decreasing_by omega

/-- `stream_template` without `repeat`, from `sent` on. -/
def stream_template : ℕ → ℕ → StateT Rng N ℕ
  | 0, sent => pure sent
  | count + 1, sent => do
    let sent ← T.stream_from build put check_signals 0 sent
    stream_template count sent

end Sending

/-! ## What goes out -/

section Lawful

variable {T} {N : Type → Type} [Monad N] [LawfulMonad N] {E : Type} [MonadExceptOf E N]
variable {build : Fields → Except E Bytes} {put : Bytes → StateT Rng N Unit}

theorem send_all_eq (frames : List Bytes) (sent : ℕ) :
    send_all put frames sent = forM frames put >>= fun _ => pure (sent + frames.length) := by
  induction frames generalizing sent with
  | nil => simp [send_all]
  | cons f frames ih =>
    rw [send_all, List.forM_cons, bind_assoc]
    refine bind_congr fun _ => ?_
    rw [ih, List.length_cons, Nat.add_right_comm, Nat.add_assoc]

theorem mapM_eq_pure {M : Type → Type} [Monad M] [LawfulMonad M] {α β : Type} {f : α → M β} {g : α → β}
    {l : List α} (h : ∀ x ∈ l, f x = pure (g x)) : l.mapM f = pure (l.map g) := by
  induction l with
  | nil => simp
  | cons x l ih =>
    rw [List.mapM_cons, h x List.mem_cons_self, ih fun y hy => h y (List.mem_cons_of_mem _ hy)]
    simp

/-- A call's window reaches as far as asked, as far as one call may, and as far as there is anything. -/
theorem window_eq {start limit : ℕ} (hstart : start ≤ T.total) (htotal : T.total ≤ U128_MAX) :
    T.window start limit = (start, min (start + min limit MAX_CHUNK) T.total) := by
  have hfirst : min start T.plan.count = start := min_eq_left hstart
  have hreach : min (start + min limit MAX_CHUNK) U128_MAX ⊓ T.total =
      min (start + min limit MAX_CHUNK) T.total := by
    rw [min_assoc, min_eq_right htotal]
  simp only [window, hfirst, saturating_add]
  exact Prod.ext rfl hreach

variable (T build) in
/-- The frame of every index is known, whatever was drawn before it. -/
def Frames (frame : ℕ → Bytes) : Prop :=
  T.total ≤ U128_MAX ∧ ∀ i < T.total, T.frame_at (N := N) build i = pure (frame i)

theorem Frames.raw_frames_eq {frame : ℕ → Bytes} (h : T.Frames (N := N) build frame) {start limit : ℕ}
    (hstart : start ≤ T.total) :
    T.raw_frames (N := N) build start limit =
      pure ((List.range' start (min (min limit MAX_CHUNK) (T.total - start))).map frame) := by
  have hlength : min (start + min limit MAX_CHUNK) T.total - start =
      min (min limit MAX_CHUNK) (T.total - start) := by
    omega
  simp only [raw_frames, window_eq hstart h.1, hlength]
  refine mapM_eq_pure fun i hi => h.2 i ?_
  have hi := List.mem_range'_1.1 hi
  omega

/-- From any point on, chunk by chunk is frame by frame. -/
theorem Frames.stream_from_eq {frame : ℕ → Bytes} (h : T.Frames (N := N) build frame) {at_ : ℕ}
    (hat : at_ ≤ T.total) (sent : ℕ) :
    T.stream_from build put (pure ()) at_ sent =
      forM ((List.range' at_ (T.total - at_)).map frame) put >>= fun _ => pure (sent + (T.total - at_)) := by
  induction hleft : T.total - at_ using Nat.strong_induction_on generalizing at_ sent with
  | _ left ih =>
    rw [stream_from]
    by_cases hmore : at_ < T.total
    · rw [if_pos hmore, h.raw_frames_eq hat]
      obtain ⟨n, hn⟩ : ∃ n, n = min (min SEND_CHUNK MAX_CHUNK) (T.total - at_) := ⟨_, rfl⟩
      have hchunk : SEND_CHUNK = 256 ∧ MAX_CHUNK = 65536 := ⟨rfl, rfl⟩
      have hpos : max n 1 = n := by omega
      -- a chunk is never empty, so every turn gets closer to the end
      have hrest : T.stream_from build put (pure ()) (at_ + n) (sent + n) =
          forM ((List.range' (at_ + n) (T.total - (at_ + n))).map frame) put >>= fun _ =>
            pure (sent + n + (T.total - (at_ + n))) := ih _ (by omega) (by omega) _ rfl
      have hsplit : List.range' at_ left = List.range' at_ n ++ List.range' (at_ + n) (T.total - (at_ + n)) := by
        rw [List.range'_append_1]
        congr 1
        omega
      have hone : ∀ frames : List Bytes, one_run put frames 1 0 =
          forM frames put >>= fun _ => pure frames.length := fun frames => by
        simp [one_run, send_all_eq]
      rw [← hn, pure_bind, hone, hsplit, List.map_append, List.forM_append]
      simp only [List.length_map, List.length_range', hpos, bind_assoc, pure_bind, hrest]
      refine bind_congr fun _ => bind_congr fun _ => ?_
      have hsum : sent + n + (T.total - (at_ + n)) = sent + left := by omega
      rw [hsum]
    · have hzero : left = 0 := by omega
      rw [if_neg hmore, hzero]
      simp

/-- A plan of fixed generators has the same frames whenever they are asked for. -/
theorem frames_of_fixed {frame : ℕ → Bytes} (hfixed : ∀ s ∈ T.plan.slots, s.gen.fixed = true)
    (hroom : T.plan.radices.prod ≤ U128_MAX)
    (hbuild : ∀ i < T.total, build (T.fields (T.plan.row (T.plan.positions i))) = .ok (frame i)) :
    T.Frames (N := N) build frame := by
  have htotal : T.total = T.plan.radices.prod := (Plan.count_min hfixed).trans (min_eq_left hroom)
  refine ⟨htotal.trans_le hroom, fun i hi => ?_⟩
  have hvalues : (modifyGet (T.plan.values_at i) : StateT Rng N _) =
      pure (T.plan.row (T.plan.positions i)) := by
    funext rng
    simp only [modifyGet, MonadStateOf.modifyGet, StateT.modifyGet,
      Plan.values_at_eq hfixed hroom (htotal ▸ hi) rng]
    rfl
  rw [frame_at, hvalues, pure_bind, hbuild i hi]

/-- **A template is sent as its product**: where all of its packets can be built, every one of them goes
out, in the product's order and `count` times over, and is counted; how they fell into chunks is not to
be seen, whatever a send does and however it fails. -/
theorem stream_template_sends {frame : ℕ → Bytes} (hfixed : ∀ s ∈ T.plan.slots, s.gen.fixed = true)
    (hroom : T.plan.radices.prod ≤ U128_MAX)
    (hbuild : ∀ i < T.total, build (T.fields (T.plan.row (T.plan.positions i))) = .ok (frame i)) (count : ℕ) :
    T.stream_template build put (pure ()) count 0 =
      forM (List.replicate count ((List.range T.plan.radices.prod).map frame)).flatten put >>= fun _ =>
        pure (count * T.plan.radices.prod) := by
  have htotal : T.total = T.plan.radices.prod := (Plan.count_min hfixed).trans (min_eq_left hroom)
  have hframes : T.Frames (N := N) build frame := frames_of_fixed hfixed hroom hbuild
  have hrounds : ∀ sent, T.stream_template build put (pure ()) count sent =
      forM (List.replicate count ((List.range T.total).map frame)).flatten put >>= fun _ =>
        pure (sent + count * T.total) := by
    induction count with
    | zero => simp [stream_template]
    | succ count ih =>
      intro sent
      rw [stream_template, hframes.stream_from_eq (Nat.zero_le _), List.replicate_succ, List.flatten_cons,
        List.forM_append, Nat.sub_zero, List.range_eq_range']
      simp only [bind_assoc, pure_bind, ih, List.range_eq_range']
      refine bind_congr fun _ => bind_congr fun _ => ?_
      rw [Nat.succ_mul, Nat.add_assoc, Nat.add_comm T.total]
  simpa [htotal] using hrounds 0

end Lawful

/-- Two ports towards three more, nothing else to a frame than their octets. -/
def ports : Template := ⟨[], [], [], ⟨[⟨0, [], .Range 1 2⟩, ⟨1, [], .Range 5 7⟩]⟩⟩

def octets (fs : Fields) : Except String Bytes := .ok (fs.ints.map fun x => UInt8.ofNat x.2.2.toNat)

def port_frame (i : ℕ) : Bytes :=
  [[1, 5], [1, 6], [1, 7], [2, 5], [2, 6], [2, 7]].getD i []

/-- A wire that refuses one of the frames. -/
def put_but_one (f : Bytes) : StateT Rng (Except String) Unit :=
  if f = [2, 6] then throw "no buffer space" else pure ()

theorem stream_template_sends_ports :
    ports.stream_template octets put_but_one (pure ()) 2 0 =
      forM (List.replicate 2 ((List.range 6).map port_frame)).flatten put_but_one >>= fun _ => pure 12 :=
  stream_template_sends (by decide) (by decide) (by decide) 2

end Template
end Wiry.Generate
