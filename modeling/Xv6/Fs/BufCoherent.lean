import Xv6.Fs.BufCache

/-!
# Coherence of the buffer cache

The invariant says which buffers are in use and for which block, that the buffers never
used are the last in the list, and that what the disk has of a block is out of date only
while a buffer with the block is dirty or locked.
-/

namespace Xv6.Bcache
open Circle Tables Runs Function List

variable {α : Type} {key : Key}

/-- Referenced, valid or dirty. -/
def Buf.Used (x : Buf α) : Prop := 0 < x.refcnt ∨ x.valid = true ∨ x.dirty = true

/-- What a step stores. -/
def Event.apply (content : Key → α) : Event α → Key → α
  | .store key data => Function.update content key data
  | _ => content

/-- What was last stored in a block; what the disk had, if nothing was. -/
def stored (disk : Key → α) (es : List (Event α)) : Key → α := es.foldl Event.apply disk

/-- The invariant, for the buffers in the order `l` of the list and the `content` of the blocks. -/
structure Coherent (n : Nat) (content : Key → α) (s : Sys α) (l : List Nat) : Prop where
  list : Holds s.cache.links l
  all : l.Perm (List.range NBUF)
  low : ∀ h, n ≤ h → s.call h = .none
  inside : ∀ h b, (s.call h).buf = some b → b < NBUF
  counts : ∀ b < NBUF, (s.buf b).refcnt = tally (fun h => (s.call h).buf) n (some b)
  locks : ∀ b < NBUF, tally (fun h => (s.call h).locks) n (some b) = if (s.buf b).locked then 1 else 0
  ready : ∀ h b, s.call h = .holding b ∨ s.call h = .writing b ∨ s.call h = .releasing b → (s.buf b).valid = true
  dirty : ∀ b < NBUF, (s.buf b).dirty = true → (s.buf b).valid = true
  fresh : ∀ b < NBUF, ¬ (s.buf b).Used → (s.buf b).key = (0, 0)
  unique : ∀ b < NBUF, ∀ b' < NBUF, (s.buf b).Used → (s.buf b').Used → (s.buf b).key = (s.buf b').key → b = b'
  order : l.Pairwise fun x y => (s.buf y).Used → (s.buf y).key = (0, 0) → (s.buf x).Used
  data : ∀ b < NBUF, (s.buf b).valid = true → (s.buf b).data = content (s.buf b).key
  disk : ∀ key, s.disk key = content key ∨
    ∃ b < NBUF, (s.buf b).valid = true ∧ (s.buf b).key = key ∧ ((s.buf b).dirty = true ∨ (s.buf b).locked = true)

section Calls

variable {n h b : Nat} {content : Key → α} {s : Sys α} {l : List Nat} {ph : Phase} {x : Buf α}

theorem Sys.put_buf (s : Sys α) (h : Nat) (ph : Phase) (b : Nat) (x : Buf α) (b' : Nat) :
    (s.put h ph b x).buf b' = if b' = b then x else s.buf b' := update_apply ..

theorem Sys.put_call (s : Sys α) (h : Nat) (ph : Phase) (b : Nat) (x : Buf α) (h' : Nat) :
    (s.put h ph b x).call h' = if h' = h then ph else s.call h' := update_apply ..

/-- One call changes. -/
theorem tally_call (call : Nat → Phase) (f : Phase → Option Nat) (ph : Phase) (inside : h < n) (b : Nat) :
    tally (fun h' => f (update call h ph h')) n (some b) + (if f (call h) = some b then 1 else 0) =
      tally (fun h' => f (call h')) n (some b) + if f ph = some b then 1 else 0 := by
  have count := tally_update (t := fun h' => f (call h')) (a := some b) inside (f ph)
  have same : (fun h' => f (update call h ph h')) = update (fun h' => f (call h')) h (f ph) := by
    funext h'
    simp only [update_apply]
    split <;> rfl
  rw [same]
  exact count

theorem Phase.locks_buf {b : Nat} (locks : ph.locks = some b) : ph.buf = some b := by
  cases ph <;> first | exact locks | cases locks

namespace Coherent

section

variable (inv : Coherent n content s l) {content' disk' : Key → α} {before after : List Nat}
include inv

theorem mem : b ∈ l ↔ b < NBUF := by
  rw [inv.all.mem_iff, mem_range]

/-- A buffer with no references is not locked, and no call is at it. -/
theorem unreferenced (inside : b < NBUF) (zero : (s.buf b).refcnt = 0) :
    (s.buf b).locked = false ∧ ∀ h, (s.call h).buf ≠ some b := by
  have count := inv.counts b inside
  rw [zero] at count
  have nobody : ∀ h, (s.call h).buf ≠ some b := by
    intro h
    by_cases low : h < n
    · exact tally_eq_zero.1 count.symm h low
    · rw [inv.low h (by omega)]
      simp [Phase.buf]
  refine ⟨?_, nobody⟩
  have free : tally (fun h => (s.call h).locks) n (some b) = 0 :=
    tally_eq_zero.2 fun h _ locks => nobody h (Phase.locks_buf locks)
  have lock := inv.locks b inside
  rw [free] at lock
  cases locked : (s.buf b).locked
  · rfl
  · rw [locked] at lock
    cases lock

/-- A call refers to a buffer that is counted. -/
theorem referenced (inside : h < n) (at_ : (s.call h).buf = some b) :
    b < NBUF ∧ 0 < (s.buf b).refcnt := by
  have bound := inv.inside h b at_
  refine ⟨bound, ?_⟩
  rw [inv.counts b bound]
  exact tally_pos.2 ⟨h, inside, at_⟩

/-- One call goes on and its buffer changes, with the disk or the contents of the block. Nothing else has the block; a
buffer that loses its block is clean. -/
theorem put (inside : h < n) (bound : b < NBUF) (was : ∀ b', (s.call h).buf = some b' → b' = b)
    (same : ∀ b', ph.buf = some b' → b' = b) (usedX : x.Used)
    (count : x.refcnt + (if (s.call h).buf = some b then 1 else 0) = (s.buf b).refcnt + if ph.buf = some b then 1 else 0)
    (lock : (if ph.locks = some b then 1 else 0) + (if (s.buf b).locked then 1 else 0) = (if (s.call h).locks = some b then 1 else 0) + if x.locked then 1 else 0)
    (unique : ∀ b' < NBUF, b' ≠ b → (s.buf b').Used → (s.buf b').key ≠ x.key)
    (first : x.key = (0, 0) → ∀ before after, l = before ++ b :: after → ∀ a ∈ before, (s.buf a).Used)
    (gone : x.key ≠ (s.buf b).key → (s.buf b).dirty = false ∧ (s.buf b).locked = false)
    (ready : ph = .holding b ∨ ph = .writing b ∨ ph = .releasing b → x.valid = true)
    (keeps : ∀ h', (s.call h').buf = some b → (s.buf b).valid = true → x.valid = true)
    (dirty : x.dirty = true → x.valid = true) (data : x.valid = true → x.data = content' x.key)
    (others : ∀ k, k ≠ x.key → content' k = content k ∧ disk' k = s.disk k)
    (disk : disk' x.key = content' x.key ∨ x.valid = true ∧ (x.dirty = true ∨ x.locked = true)) :
    Coherent n content' { s.put h ph b x with disk := disk' } l := by
  have bufs : ∀ b', ({ s.put h ph b x with disk := disk' } : Sys α).buf b' = if b' = b then x else s.buf b' :=
    s.put_buf h ph b x
  have calls : ∀ h', ({ s.put h ph b x with disk := disk' } : Sys α).call h' = if h' = h then ph else s.call h' :=
    s.put_call h ph b x
  have apart : ∀ {f : Phase → Option Nat} {b'}, (∀ ph c, f ph = some c → ph.buf = some c) → b' ≠ b →
      f (s.call h) ≠ some b' ∧ f ph ≠ some b' := fun refers other =>
    ⟨fun is => other (was _ (refers _ _ is)), fun is => other (same _ (refers _ _ is))⟩
  refine ⟨inv.list, inv.all, ?_, ?_, ?_, ?_, ?_, ?_, ?_, ?_, ?_, ?_, ?_⟩
  · intro h' high
    rw [calls, if_neg (by omega)]
    exact inv.low h' high
  · intro h' b' refers
    rw [calls] at refers
    split at refers
    · rw [same b' refers]
      exact bound
    · exact inv.inside h' b' refers
  · intro b' bound'
    have moved := tally_call s.call Phase.buf ph inside b'
    have old := inv.counts b' bound'
    rw [bufs]
    show _ = tally (fun h' => (update s.call h ph h').buf) n (some b')
    split
    · rename_i is
      subst is
      omega
    · rename_i other
      obtain ⟨notBefore, notAfter⟩ := apart (fun _ _ => id) other
      rw [if_neg notBefore, if_neg notAfter] at moved
      omega
  · intro b' bound'
    have moved := tally_call s.call Phase.locks ph inside b'
    have old := inv.locks b' bound'
    rw [bufs]
    show tally (fun h' => (update s.call h ph h').locks) n (some b') = _
    split
    · rename_i is
      subst is
      omega
    · rename_i other
      obtain ⟨notBefore, notAfter⟩ := apart (fun _ _ => Phase.locks_buf) other
      rw [if_neg notBefore, if_neg notAfter] at moved
      omega
  · intro h' b' phases
    rw [bufs]
    rw [calls] at phases
    have refers : (if h' = h then ph else s.call h').buf = some b' := by
      rcases phases with is | is | is <;> rw [is] <;> rfl
    split at phases
    · rename_i isH
      rw [if_pos isH] at refers
      obtain rfl := same b' refers
      rw [if_pos rfl]
      exact ready phases
    · rename_i isH
      rw [if_neg isH] at refers
      have valid := inv.ready h' b' phases
      split
      · rename_i isB
        subst isB
        exact keeps h' refers valid
      · exact valid
  · intro b' bound'
    rw [bufs]
    split
    · exact dirty
    · exact inv.dirty b' bound'
  · intro b' bound' unused
    rw [bufs] at unused ⊢
    split at unused
    · exact absurd usedX unused
    · rename_i other
      rw [if_neg other]
      exact inv.fresh b' bound' unused
  · intro b1 bound1 b2 bound2 used1 used2 eq
    rw [bufs] at used1 used2
    rw [bufs, bufs] at eq
    by_cases is1 : b1 = b
    · by_cases is2 : b2 = b
      · rw [is1, is2]
      · rw [if_neg is2] at used2 eq
        rw [if_pos is1] at eq
        exact absurd eq.symm (unique b2 bound2 is2 used2)
    · rw [if_neg is1] at used1 eq
      by_cases is2 : b2 = b
      · rw [if_pos is2] at eq
        exact absurd eq (unique b1 bound1 is1 used1)
      · rw [if_neg is2] at used2 eq
        exact inv.unique b1 bound1 b2 bound2 used1 used2 eq
  · obtain ⟨before, after, split_⟩ := append_of_mem (inv.mem.2 bound)
    have distinct := inv.list.distinct
    have old := inv.order
    rw [split_, nodup_append, nodup_cons] at distinct
    rw [split_, pairwise_append, pairwise_cons] at old
    rw [split_, pairwise_append, pairwise_cons]
    have notBefore : ∀ a ∈ before, a ≠ b := fun a mem => distinct.2.2 a mem b (by simp)
    have notAfter : ∀ a ∈ after, a ≠ b := by
      intro a mem is
      exact distinct.2.1.1 (is ▸ mem)
    refine ⟨?_, ⟨?_, ?_⟩, ?_⟩
    · refine old.1.imp_of_mem fun {a c} memA memC rel => ?_
      rw [bufs, bufs, if_neg (notBefore a memA), if_neg (notBefore c memC)]
      exact rel
    · intro c memC _ _
      rw [bufs, if_pos rfl]
      exact usedX
    · refine old.2.1.2.imp_of_mem fun {a c} memA memC rel => ?_
      rw [bufs, bufs, if_neg (notAfter a memA), if_neg (notAfter c memC)]
      exact rel
    · intro a memA c memC
      rw [bufs, bufs, if_neg (notBefore a memA)]
      split
      · intro _ isZero
        exact first isZero before after split_ a memA
      · exact old.2.2 a memA c memC
  · intro b' bound'
    rw [bufs]
    split
    · exact data
    · rename_i other
      intro valid
      rw [(others _ (unique b' bound' other (.inr (.inl valid)))).1]
      exact inv.data b' bound' valid
  · intro k
    by_cases here : k = x.key
    · rw [here]
      rcases disk with clean | ⟨valid, why⟩
      · exact .inl clean
      · refine .inr ⟨b, bound, ?_⟩
        rw [bufs, if_pos rfl]
        exact ⟨valid, rfl, why⟩
    · obtain ⟨sameContent, sameDisk⟩ := others k here
      rcases inv.disk k with clean | ⟨b', bound', valid, is, why⟩
      · exact .inl (by rw [sameContent, ← clean]; exact sameDisk)
      · refine .inr ⟨b', bound', ?_⟩
        have other : b' ≠ b := by
          rintro rfl
          obtain ⟨clean, free⟩ := gone fun same => here (is.symm.trans same.symm)
          rw [clean, free] at why
          simp at why
        rw [bufs, if_neg other]
        exact ⟨valid, is, why⟩

/-- The block of a buffer in use: the disk has it, unless the buffer is dirty or locked. -/
theorem disk_at (bound : b < NBUF) (used : (s.buf b).Used) :
    s.disk (s.buf b).key = content (s.buf b).key ∨
      (s.buf b).valid = true ∧ ((s.buf b).dirty = true ∨ (s.buf b).locked = true) := by
  rcases inv.disk (s.buf b).key with clean | ⟨b', bound', valid, is, why⟩
  · exact .inl clean
  · cases inv.unique b' bound' b bound (.inr (.inl valid)) used is
    exact .inr ⟨valid, why⟩

/-- A call changes the buffer it refers to, and the disk or the contents of its block. -/
theorem at_buf (inside : h < n) (at_ : (s.call h).buf = some b)
    (count : ph.buf = some b ∧ x.refcnt = (s.buf b).refcnt ∨ ph.buf = none ∧ x.refcnt + 1 = (s.buf b).refcnt)
    (key : x.key = (s.buf b).key) (usedX : x.Used)
    (lock : (if ph.locks = some b then 1 else 0) + (if (s.buf b).locked then 1 else 0) = (if (s.call h).locks = some b then 1 else 0) + if x.locked then 1 else 0)
    (ready : ph = .holding b ∨ ph = .writing b ∨ ph = .releasing b ∨ (s.buf b).valid = true → x.valid = true)
    (dirty : x.dirty = true → x.valid = true) (data : x.valid = true → x.data = content' x.key)
    (others : ∀ k, k ≠ x.key → content' k = content k ∧ disk' k = s.disk k)
    (disk : disk' x.key = content' x.key ∨ x.valid = true ∧ (x.dirty = true ∨ x.locked = true)) :
    Coherent n content' { s.put h ph b x with disk := disk' } l := by
  obtain ⟨bound, positive⟩ := inv.referenced inside at_
  refine inv.put inside bound (fun b' is => Option.some.inj (is.symm.trans at_)) ?_ usedX ?_ lock ?_ ?_
    (fun lost => absurd key lost) (fun phases => ready ?_) (fun _ _ valid => ready (.inr (.inr (.inr valid)))) dirty data others disk
  · rcases count with ⟨same, _⟩ | ⟨none_, _⟩
    · exact fun b' is => Option.some.inj (is.symm.trans same)
    · exact fun b' is => nomatch is.symm.trans none_
  · rcases count with ⟨same, refs⟩ | ⟨none_, refs⟩
    · rw [if_pos at_, if_pos same, refs]
    · rw [if_pos at_, none_]
      exact refs
  · intro b' bound' other used eq
    exact other (inv.unique b' bound' b bound used (.inl positive) (eq.trans key))
  · rintro isZero before after split_ a mem
    have old := inv.order
    rw [split_, pairwise_append] at old
    exact old.2.2 a mem b (by simp) (.inl positive) (key.symm.trans isZero)
  · exact phases.imp_right (Or.imp_right .inl)

/-- A call gets its first reference to a buffer, as it is or recycled. -/
theorem taken (inside : h < n) (idle : s.call h = .none) (split_ : l = before ++ b :: after)
    (count : x.refcnt = (s.buf b).refcnt + 1) (lock : x.locked = (s.buf b).locked)
    (keeps : x = { s.buf b with refcnt := (s.buf b).refcnt + 1 } ∨ (s.buf b).refcnt = 0 ∧ (s.buf b).dirty = false ∧ x.valid = false ∧ x.dirty = false)
    (unique : ∀ b' < NBUF, b' ≠ b → (s.buf b').Used → (s.buf b').key ≠ x.key)
    (first : x.key = (0, 0) → ∀ a ∈ before, (s.buf a).Used) : Coherent n content (s.put h (.waiting b) b x) l := by
  have bound : b < NBUF := inv.mem.1 (by simp [split_])
  refine inv.put inside bound ?_ (fun b' is => (Option.some.inj is).symm) (.inl (by omega)) ?_ ?_ unique ?_ ?_ ?_ ?_ ?_ ?_
    (fun _ _ => ⟨rfl, rfl⟩) ?_
  · rw [idle]
    rintro b' ⟨⟩
  · rw [idle, count]
    simp [Phase.buf]
  · rw [idle, lock]
    simp [Phase.locks]
  · intro isZero before' after' split' a mem
    have distinct := inv.list.distinct
    rw [split_, nodup_append, nodup_cons] at distinct
    obtain ⟨rfl, _⟩ := (append_cons_inj_of_notMem (fun mem => distinct.2.2 b mem b (by simp) rfl) distinct.2.1.1).1
      (split_.symm.trans split')
    exact first isZero a mem
  · rcases keeps with rfl | ⟨zero, clean, _⟩
    · exact fun lost => absurd rfl lost
    · exact fun _ => ⟨clean, (inv.unreferenced bound zero).1⟩
  · rintro (is | is | is) <;> cases is
  · rcases keeps with rfl | ⟨zero, _⟩
    · exact fun _ _ => id
    · exact fun h' refers => absurd refers ((inv.unreferenced bound zero).2 h')
  · rcases keeps with rfl | ⟨_, _, _, clean⟩
    · exact inv.dirty b bound
    · rw [clean]
      rintro ⟨⟩
  · rcases keeps with rfl | ⟨_, _, invalid, _⟩
    · exact inv.data b bound
    · rw [invalid]
      rintro ⟨⟩
  · rcases inv.disk x.key with clean | ⟨b', bound', valid, is, why⟩
    · exact .inl clean
    · by_cases isB : b' = b
      · subst isB
        rcases keeps with rfl | ⟨zero, clean, _⟩
        · exact .inr ⟨valid, why⟩
        · rw [(inv.unreferenced bound zero).1, clean] at why
          simp at why
      · exact absurd is (unique b' bound' isB (.inr (.inl valid)))

/-- The two loops of `bget` on the list. -/
theorem bget_eq (key : Key) : s.cache.bget key =
    match l.find? fun b => decide ((s.buf b).key = key) with
    | some b => some (b, s.cache.setBuf b { s.buf b with refcnt := (s.buf b).refcnt + 1 })
    | none => (l.reverse.find? fun b => decide ((s.buf b).refcnt = 0 ∧ (s.buf b).dirty = false)).map fun b =>
      (b, s.cache.setBuf b { s.buf b with key := key, valid := false, dirty := false, refcnt := 1 }) := by
  have length : l.length < NBUF + 1 := by
    rw [inv.all.length_eq, length_range]
    omega
  unfold Cache.bget
  rw [inv.list.seek_next length, inv.list.seek_prev length]
  unfold Sys.buf
  cases l.find? fun b => decide ((s.cache.buf b).key = key) with
  | some b => rfl
  | none => cases l.reverse.find? fun b => decide ((s.cache.buf b).refcnt = 0 ∧ (s.cache.buf b).dirty = false) <;> rfl

/-- What `bget` finds: the first buffer with the block, or a buffer to recycle when there is none. -/
theorem bget_some {c : Cache α} (call : s.cache.bget key = some (b, c)) :
    (∃ before after, l = before ++ b :: after ∧ (∀ a ∈ before, (s.buf a).key ≠ key) ∧ (s.buf b).key = key ∧
      c = s.cache.setBuf b { s.buf b with refcnt := (s.buf b).refcnt + 1 }) ∨
    (∀ a ∈ l, (s.buf a).key ≠ key) ∧ b ∈ l ∧ (s.buf b).refcnt = 0 ∧ (s.buf b).dirty = false ∧
      c = s.cache.setBuf b { s.buf b with key := key, valid := false, dirty := false, refcnt := 1 } := by
  rw [inv.bget_eq] at call
  split at call
  · rename_i hit
    cases call
    obtain ⟨is, before, after, split_, first⟩ := find?_eq_some_iff_append.1 hit
    exact .inl ⟨before, after, split_, by simpa using first, of_decide_eq_true is, rfl⟩
  · rename_i hit
    rw [Option.map_eq_some_iff] at call
    obtain ⟨_, old, same⟩ := call
    cases same
    have clean := find?_some old
    rw [decide_eq_true_eq] at clean
    have mem := mem_of_find?_eq_some old
    rw [mem_reverse] at mem
    exact .inr ⟨by simpa using hit, mem, clean.1, clean.2, rfl⟩

/-- **`bget`** keeps the invariant. -/
theorem bget {c : Cache α} (inside : h < n) (idle : s.call h = .none) (call : s.cache.bget key = some (b, c)) :
    Coherent n content { s with cache := c, call := update s.call h (.waiting b) } l := by
  rcases inv.bget_some call with ⟨before, after, split_, first, is, rfl⟩ | ⟨missing, mem, zero, clean, rfl⟩
  · have bound : b < NBUF := inv.mem.1 (by simp [split_])
    -- a buffer that was never used is the first with its block
    have beforeUsed : ¬ (s.buf b).Used → ∀ a ∈ before, (s.buf a).Used := by
      intro unused a memA
      by_contra unusedA
      have boundA : a < NBUF := inv.mem.1 (by simp [split_, memA])
      apply first a memA
      rw [← is, inv.fresh b bound unused, inv.fresh a boundA unusedA]
    refine inv.taken inside idle split_ rfl rfl (.inl rfl) ?_ ?_
    · intro b' bound' other used' eq
      by_cases usedB : (s.buf b).Used
      · exact other (inv.unique b' bound' b bound used' usedB eq)
      · have zero := inv.fresh b bound usedB
        have mem' := inv.mem.2 bound'
        rw [split_, mem_append, mem_cons] at mem'
        rcases mem' with early | isB | late
        · exact first b' early (eq.trans is)
        · exact other isB
        · have old := inv.order
          rw [split_, pairwise_append, pairwise_cons] at old
          exact usedB (old.2.1.1 b' late used' (eq.trans zero))
    · intro isZero
      by_cases usedB : (s.buf b).Used
      · intro a memA
        have old := inv.order
        rw [split_, pairwise_append] at old
        exact old.2.2 a memA b (by simp) usedB isZero
      · exact beforeUsed usedB
  · obtain ⟨before, after, split_⟩ := append_of_mem mem
    refine inv.taken inside idle split_ ?_ rfl (.inr ⟨zero, clean, rfl, rfl⟩) ?_ ?_
    · show 1 = _
      rw [zero]
    · intro b' bound' _ _
      exact missing b' (inv.mem.2 bound')
    · intro isZero a memA
      by_contra unused
      have inL : a ∈ l := by simp [split_, memA]
      exact missing a inL ((inv.fresh a (inv.mem.1 inL) unused).trans isZero.symm)

/-- A buffer that has been used goes to the front of the list. -/
theorem moved (split_ : l = before ++ b :: after) (used : (s.buf b).Used) :
    Coherent n content { s with cache := { s.cache with links := (s.cache.links.unlink b).push b } }
      (b :: (before ++ after)) := by
  have list := inv.list
  have order := inv.order
  rw [split_] at list order
  have perm : (b :: (before ++ after)).Perm l := by
    rw [split_]
    exact perm_middle.symm
  refine ⟨?_, perm.trans inv.all, inv.low, inv.inside, inv.counts, inv.locks, inv.ready, inv.dirty, inv.fresh, inv.unique, ?_,
    inv.data, inv.disk⟩
  · apply list.unlink.push
    have distinct := nodup_middle.1 list.distinct
    exact (nodup_cons.1 distinct).1
  · rw [pairwise_cons]
    refine ⟨fun c _ _ _ => used, order.sublist ?_⟩
    exact (List.sublist_cons_self b after).append_left before

/-- **`brelse`** keeps the invariant; a buffer that is not referenced any more goes to the front of the list. -/
theorem drop (inside : h < n) (at_ : s.call h = .releasing b) :
    ∃ l', Coherent n content { s with cache := s.cache.drop b, call := update s.call h .none } l' := by
  have refers : (s.call h).buf = some b := by rw [at_]; rfl
  obtain ⟨bound, positive⟩ := inv.referenced inside refers
  have valid := inv.ready h b (.inr (.inr at_))
  obtain ⟨before, after, split_⟩ := append_of_mem (inv.mem.2 bound)
  have put : Coherent n content
      { s.put h .none b { s.buf b with refcnt := (s.buf b).refcnt - 1 } with disk := s.disk } l := by
    apply inv.at_buf inside refers
    · exact .inr ⟨rfl, Nat.sub_add_cancel positive⟩
    · rfl
    · exact .inr (.inl valid)
    · rw [at_]
      rfl
    · intro _
      exact valid
    · exact inv.dirty b bound
    · exact inv.data b bound
    · intro k _
      exact ⟨rfl, rfl⟩
    · exact inv.disk_at bound (.inl positive)
  unfold Cache.drop
  dsimp only
  split
  · refine ⟨_, put.moved split_ ?_⟩
    rw [show ({ s.put h .none b { s.buf b with refcnt := (s.buf b).refcnt - 1 } with disk := s.disk } : Sys α).buf b =
      { s.buf b with refcnt := (s.buf b).refcnt - 1 } from update_self ..]
    exact .inr (.inl valid)
  · exact ⟨l, put⟩

theorem locked_at (inside : h < n) (locks : (s.call h).locks = some b) :
    (s.buf b).locked = true := by
  have count := inv.locks b (inv.inside h b (Phase.locks_buf locks))
  have positive : 0 < tally (fun h => (s.call h).locks) n (some b) := tally_pos.2 ⟨h, inside, locks⟩
  by_contra free
  rw [if_neg free] at count
  omega

/-- The holder marks its buffer. -/
theorem dirtied (inside : h < n) (at_ : s.call h = .holding b)
    (locks : ph.locks = (s.call h).locks) (goes : ph = .holding b ∨ ph = .writing b) :
    Coherent n content (s.put h ph b { s.buf b with dirty := true }) l := by
  have refers : (s.call h).buf = some b := by rw [at_]; rfl
  have valid := inv.ready h b (.inl at_)
  refine inv.at_buf inside refers (.inl ⟨?_, rfl⟩) rfl (.inr (.inl valid)) ?_ (fun _ => valid) (fun _ => valid)
    (inv.data b (inv.referenced inside refers).1) (fun _ _ => ⟨rfl, rfl⟩) (.inr ⟨valid, .inl rfl⟩)
  · rcases goes with rfl | rfl <;> rfl
  · rw [locks]

end

end Coherent

/-- **Every step** keeps the invariant. -/
theorem Coherent.step {s' : Sys α} {e : Event α} (inv : Coherent n content s l) (step : Step n e s s') :
    ∃ l', Coherent n (e.apply content) s' l' := by
  cases step with
  | bget inside idle call => exact ⟨l, inv.bget inside idle call⟩
  | @acquiresleep _ h b inside at_ free =>
    have refers : (s.call h).buf = some b := by rw [at_]; rfl
    obtain ⟨bound, positive⟩ := inv.referenced inside refers
    refine ⟨l, inv.at_buf inside refers (.inl ⟨rfl, rfl⟩) rfl (.inl positive) ?_ ?_ (inv.dirty b bound) (inv.data b bound)
      (fun _ _ => ⟨rfl, rfl⟩) ?_⟩
    · simp [at_, free, Phase.locks]
    · simp
    · rcases inv.disk_at bound (.inl positive) with clean | ⟨valid, _⟩
      · exact .inl clean
      · exact .inr ⟨valid, .inr rfl⟩
  | @read _ h b inside at_ invalid =>
    have refers : (s.call h).buf = some b := by rw [at_]; rfl
    obtain ⟨bound, positive⟩ := inv.referenced inside refers
    -- no other buffer has the block
    have clean : s.disk (s.buf b).key = content (s.buf b).key := by
      rcases inv.disk_at bound (.inl positive) with clean | ⟨valid, _⟩
      · exact clean
      · cases invalid.symm.trans valid
    refine ⟨l, inv.at_buf inside refers (.inl ⟨rfl, rfl⟩) rfl (.inl positive) ?_ (fun _ => rfl) (fun _ => rfl) (fun _ => clean)
      (fun _ _ => ⟨rfl, rfl⟩) (.inl clean)⟩
    simp [at_]
  | @bread _ h b inside at_ valid =>
    have refers : (s.call h).buf = some b := by rw [at_]; rfl
    obtain ⟨bound, positive⟩ := inv.referenced inside refers
    refine ⟨l, inv.at_buf inside refers (.inl ⟨rfl, rfl⟩) rfl (.inl positive) ?_ (fun _ => valid) (inv.dirty b bound)
      (inv.data b bound) (fun _ _ => ⟨rfl, rfl⟩) (inv.disk_at bound (.inl positive))⟩
    simp [at_, Phase.locks]
  | @store _ h b data inside at_ =>
    have valid := inv.ready h b (.inl at_)
    refine ⟨l, inv.at_buf inside (by rw [at_]; rfl) (.inl ⟨rfl, rfl⟩) rfl (.inr (.inl valid)) ?_ (fun _ => valid) (fun _ => valid)
      (fun _ => ?_) (fun k other => ⟨update_of_ne other .., rfl⟩) ?_⟩
    · simp [at_]
    · show data = update content (s.buf b).key data (s.buf b).key
      rw [update_self]
    · exact .inr ⟨valid, .inr (inv.locked_at inside (by rw [at_]; rfl))⟩
  | @logWrite _ h b inside at_ => exact ⟨l, inv.dirtied inside at_ (by simp [at_]) (.inl rfl)⟩
  | @bwrite _ h b inside at_ => exact ⟨l, inv.dirtied inside at_ (by simp [at_, Phase.locks]) (.inr rfl)⟩
  | @written _ h b inside at_ =>
    have valid := inv.ready h b (.inr (.inl at_))
    have data := inv.data b (inv.referenced inside (by rw [at_]; rfl)).1 valid
    refine ⟨l, inv.at_buf inside (by rw [at_]; rfl) (.inl ⟨rfl, rfl⟩) rfl (.inr (.inl rfl)) ?_ (fun _ => rfl) (fun _ => rfl)
      (fun _ => data) (fun k other => ⟨rfl, update_of_ne other ..⟩) (.inl ?_)⟩
    · simp [at_, Phase.locks]
    · show update s.disk (s.buf b).key (s.buf b).data (s.buf b).key = _
      rw [update_self]
      exact data
  | @releasesleep _ h b inside at_ saved =>
    have valid := inv.ready h b (.inl at_)
    have data := inv.data b (inv.referenced inside (by rw [at_]; rfl)).1
    have locked := inv.locked_at inside (b := b) (by rw [at_]; rfl)
    refine ⟨l, inv.at_buf inside (by rw [at_]; rfl) (.inl ⟨rfl, rfl⟩) rfl (.inr (.inl valid)) ?_ (fun _ => valid) (fun _ => valid)
      data (fun _ _ => ⟨rfl, rfl⟩) ?_⟩
    · simp [at_, Phase.locks, locked]
    · rcases saved with dirty | clean
      · exact .inr ⟨valid, .inl dirty⟩
      · exact .inl (clean.symm.trans (data valid))
  | drop inside at_ => exact inv.drop inside at_

/-- A buffer gets another block, or loses its contents, only when it is neither referenced nor dirty. -/
theorem Coherent.recycled {s' : Sys α} {e : Event α} (inv : Coherent n content s l) (step : Step n e s s')
    (changed : (s'.buf b).key ≠ (s.buf b).key ∨ (s.buf b).valid = true ∧ (s'.buf b).valid = false) :
    (s.buf b).refcnt = 0 ∧ (s.buf b).dirty = false := by
  have kept : ∀ (h' b' : Nat) (ph' : Phase) (y : Buf α), s'.buf = (s.put h' ph' b' y).buf → y.key = (s.buf b').key →
      ((s.buf b').valid = true → y.valid = true) → (s.buf b).refcnt = 0 ∧ (s.buf b).dirty = false := by
    intro h' b' ph' y same key valid
    rw [same, Sys.put_buf] at changed
    split at changed
    · rename_i is
      subst is
      rcases changed with other | ⟨before, after⟩
      · exact absurd key other
      · cases (valid before).symm.trans after
    · rcases changed with other | ⟨before, after⟩
      · exact absurd rfl other
      · cases before.symm.trans after
  cases step with
  | @bget _ h b' key c inside idle call =>
    rcases inv.bget_some call with ⟨_, _, _, _, _, rfl⟩ | ⟨_, _, zero, clean, rfl⟩
    · exact kept h b' (.waiting b') _ rfl rfl id
    · by_cases is : b = b'
      · rw [is]
        exact ⟨zero, clean⟩
      · have same : (({ s with
            cache := s.cache.setBuf b' { s.buf b' with key := key, valid := false, dirty := false, refcnt := 1 }
            call := update s.call h (.waiting b') } : Sys α).buf b) = s.buf b := update_of_ne is ..
        rw [same] at changed
        rcases changed with other | ⟨before, after⟩
        · exact absurd rfl other
        · cases before.symm.trans after
  | @acquiresleep _ h b' _ _ _ => exact kept h b' _ _ rfl rfl id
  | @read _ h b' _ _ _ => exact kept h b' _ _ rfl rfl fun _ => rfl
  | @bread _ h b' _ _ _ => exact kept h b' _ _ rfl rfl id
  | @store _ h b' _ _ _ => exact kept h b' _ _ rfl rfl id
  | @logWrite _ h b' _ _ => exact kept h b' _ _ rfl rfl id
  | @bwrite _ h b' _ _ => exact kept h b' _ _ rfl rfl id
  | @written _ h b' _ _ => exact kept h b' (.holding b') _ rfl rfl fun _ => rfl
  | @releasesleep _ h b' _ _ _ => exact kept h b' _ _ rfl rfl id
  | @drop _ h b' _ _ =>
    refine kept h b' .none { s.buf b' with refcnt := (s.buf b').refcnt - 1 } ?_ rfl id
    funext b
    show (s.cache.drop b').buf b = _
    unfold Cache.drop
    dsimp only
    split <;> rfl

/-- `bget` gets a buffer, unless all are referenced or dirty. -/
theorem Coherent.bget_none (inv : Coherent n content s l) (panics : s.cache.bget key = none) (bound : b < NBUF) :
    0 < (s.buf b).refcnt ∨ (s.buf b).dirty = true := by
  rw [inv.bget_eq] at panics
  split at panics
  · cases panics
  · rw [Option.map_eq_none_iff] at panics
    have busy := find?_eq_none.1 panics b (by rw [mem_reverse]; exact inv.mem.2 bound)
    rw [decide_eq_true_eq, not_and_or] at busy
    rcases busy with referenced | dirty
    · exact .inl (Nat.pos_of_ne_zero referenced)
    · exact .inr (by simpa using dirty)

theorem boot_coherent (n : Nat) (zero : α) (disk : Key → α) : ∃ l, Coherent n disk (boot zero disk) l := by
  have start : Holds (⟨fun _ => none, fun _ => none⟩ : Links Nat) [] := ⟨nodup_nil, rfl, rfl⟩
  have list := start.pushes (List.range NBUF) nodup_range (by simp)
  rw [append_nil] at list
  have unused : ∀ b, ¬ ((boot zero disk).buf b).Used := by
    rintro b (some_ | some_ | some_) <;> cases some_
  refine ⟨_, list, reverse_perm _, ?_, ?_, ?_, ?_, ?_, ?_, ?_, ?_, ?_, ?_, ?_⟩
  · intro h _
    rfl
  · intro h b refers
    cases refers
  · intro b _
    exact (tally_eq_zero.2 fun h _ => by simp [boot, Phase.buf]).symm
  · intro b _
    exact tally_eq_zero.2 fun h _ => by simp [boot, Phase.locks]
  · intro h b phases
    rcases phases with is | is | is <;> cases is
  · intro b _ dirty
    cases dirty
  · intro b _ _
    rfl
  · intro b _ b' _ used
    exact absurd used (unused b)
  · refine pairwise_of_forall fun x y used => ?_
    exact absurd used (unused y)
  · intro b _ valid
    cases valid
  · intro key
    exact .inl rfl

end Calls

section Runs

variable {n : Nat} {zero : α} {disk : Key → α} {es : List (Event α)} {s : Sys α}

theorem Coherent.run (run : Trace (Step n) (boot zero disk) es s) : ∃ l, Coherent n (stored disk es) s l :=
  run.history (I := fun es s => ∃ l, Coherent n (stored disk es) s l)
    (fun es e s s' inv step => by
      obtain ⟨l, inv⟩ := inv
      rw [stored, foldl_append]
      exact inv.step step)
    (boot_coherent n zero disk)

/-- **Coherence of the buffer cache.** -/
theorem buffer_cache_coherent (run : Trace (Step n) (boot zero disk) es s) :
    (∃ l, Holds s.cache.links l ∧ l.Perm (List.range NBUF)) ∧
    (∀ b < NBUF, ∀ b' < NBUF, (s.buf b).Used → (s.buf b').Used → (s.buf b).key = (s.buf b').key → b = b') ∧
    (∀ e s' b, Step n e s s' →
      (s'.buf b).key ≠ (s.buf b).key ∨ (s.buf b).valid = true ∧ (s'.buf b).valid = false →
      (s.buf b).refcnt = 0 ∧ (s.buf b).dirty = false) ∧
    (∀ key data s', Step n (.bread key data) s s' → data = stored disk es key) ∧
    ∀ key, s.cache.bget key = none → ∀ b < NBUF, 0 < (s.buf b).refcnt ∨ (s.buf b).dirty = true := by
  obtain ⟨l, inv⟩ := Coherent.run run
  refine ⟨⟨l, inv.list, inv.all⟩, inv.unique, ?_, ?_, ?_⟩
  · intro e s' b step
    exact inv.recycled step
  · intro key data s' step
    cases step with
    | @bread _ h b inside at_ valid =>
      exact inv.data b (inv.referenced inside (by rw [at_]; rfl)).1 valid
  · intro key panics b bound
    exact inv.bget_none panics bound

theorem Step.bread_of {h b : Nat} {data : α} (inside : h < n) (at_ : s.call h = .got b) (valid : (s.buf b).valid = true)
    (isKey : (s.buf b).key = key) (isData : (s.buf b).data = data) :
    Step n (.bread key data) s (s.put h (.holding b) b (s.buf b)) := by
  subst isKey isData
  exact .bread inside at_ valid

theorem Step.store_of {h b : Nat} {data : α} (inside : h < n) (at_ : s.call h = .holding b) (isKey : (s.buf b).key = key) :
    Step n (.store key data) s (s.put h (.holding b) b { s.buf b with data := data }) := by
  subst isKey
  exact .store inside at_

/-- Block 5 of disk 1 is read, changed and logged, given back, and read again. -/
theorem buffer_cache_coherent_logged : ∃ (es : List (Event Nat)) (s s' : Sys Nat),
    Trace (Step 1) (boot 0 fun _ => 3) es s ∧ Step 1 (.bread (1, 5) 9) s s' ∧ stored (fun _ => 3) es (1, 5) = 9 := by
  have start : Trace (Step 1) (boot 0 fun _ => 3) [] (boot 0 fun _ => 3) := .nil
  have waits := start.snoc (show Step 1 (.bget (1, 5)) _ _ from .bget (h := 0) Nat.one_pos rfl rfl)
  have locks := waits.snoc (show Step 1 .acquiresleep _ _ from .acquiresleep (h := 0) Nat.one_pos rfl rfl)
  have reads := locks.snoc (show Step 1 .read _ _ from .read (h := 0) Nat.one_pos rfl rfl)
  have holds := reads.snoc (show Step 1 (.bread (1, 5) 3) _ _ from .bread_of (h := 0) Nat.one_pos rfl rfl rfl rfl)
  have stores := holds.snoc (show Step 1 (.store (1, 5) 9) _ _ from .store_of (h := 0) Nat.one_pos rfl rfl)
  have logs := stores.snoc (show Step 1 .logWrite _ _ from .logWrite (h := 0) Nat.one_pos rfl)
  have unlocks := logs.snoc (show Step 1 .releasesleep _ _ from .releasesleep (h := 0) Nat.one_pos rfl (.inl rfl))
  have drops := unlocks.snoc (show Step 1 .drop _ _ from .drop (h := 0) Nat.one_pos rfl)
  have again := drops.snoc (show Step 1 (.bget (1, 5)) _ _ from .bget (h := 0) Nat.one_pos rfl rfl)
  have run := again.snoc (show Step 1 .acquiresleep _ _ from .acquiresleep (h := 0) Nat.one_pos rfl rfl)
  refine ⟨_, _, _, run, .bread_of (h := 0) Nat.one_pos rfl rfl rfl rfl, ?_⟩
  exact ((buffer_cache_coherent run).2.2.2.1 _ _ _ (.bread_of (h := 0) Nat.one_pos rfl rfl rfl rfl)).symm

end Runs

end Xv6.Bcache
