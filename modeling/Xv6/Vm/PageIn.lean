import Xv6.Vm.Swap
import Xv6.Proc.Step

/-!
# Page-in (`vm.c`)

`fifo_replace` exchanges a slot and the frame of the longest resident page, a quarter of a
page at a time. The faulting page gets the frame with the contents of the slot, and the
slot gets the contents of the frame. `replace_page` does none of this for a process that
is named `init` or `sh`, and then the access faults again.
-/

namespace Xv6

open Fallible Function List

/-! ## The exchange -/

section Exchange

variable {f j : Nat} {ip : Inode} {old : Bytes}

theorem Kmem.copyPage_twice (km : Kmem) (f : Nat) (bytes bytes' : Bytes) :
    (km.copyPage f bytes).copyPage f bytes' = km.copyPage f bytes' := by
  simp only [Kmem.copyPage, update_idem]

/-- What a read of slot `j` into a cleared buffer shows. -/
def slotBytes (files : VpFiles) (j : Nat) : Bytes := fun o =>
  match files (slotFile j) with
  | none => 0
  | some ip => if slotOffset j + o < ip.size then ip.data (slotOffset j + o) else 0

/-- The page after `n` bytes were exchanged. -/
def mixed (new old : Bytes) (n : Nat) : Bytes := fun o => if o < n then new o else old o

theorem mixed_step (new old : Bytes) (n m : Nat) :
    (fun o => if n ≤ o ∧ o < n + m then new o else mixed new old n o) = mixed new old (n + m) := by
  funext o
  simp only [mixed]
  by_cases low : o < n
  · rw [if_neg (by omega), if_pos low, if_pos (by omega)]
  · by_cases here : o < n + m
    · rw [if_pos (by omega), if_pos here]
    · rw [if_neg (by omega), if_neg low, if_neg here]

/-- The file after the first `n` bytes of the slot were exchanged. -/
def Inode.taken (ip : Inode) (old : Bytes) (j n : Nat) : Inode := ip.over old (slotOffset j) (slotOffset j) (slotOffset j + n)

theorem Inode.taken_step (n m : Nat) :
    (ip.taken old j n).over (fun o => old (n + o)) (slotOffset j + n) (slotOffset j + n) (slotOffset j + n + m) =
      ip.taken old j (n + m) := by
  have size : max (max ip.size (slotOffset j + n)) (slotOffset j + n + m) = max ip.size (slotOffset j + (n + m)) := by omega
  simp only [Inode.taken, Inode.over, size]
  congr 1
  funext o
  by_cases here : slotOffset j + n ≤ o ∧ o < slotOffset j + n + m
  · rw [if_pos here, if_pos (by omega), show n + (o - (slotOffset j + n)) = o - slotOffset j by omega]
  · rw [if_neg here]
    by_cases before : slotOffset j ≤ o ∧ o < slotOffset j + n
    · rw [if_pos before, if_pos (by omega)]
    · rw [if_neg before, if_neg (by omega)]

variable {files : VpFiles} {n m : Nat}

/-- The file of the slot, after `n` bytes of it were exchanged. -/
theorem taken_file (files : VpFiles) (ip : Inode) (old : Bytes) (room : n < PGSIZE) :
    update files (slotFile j) (some (ip.taken old j n)) ((j * PGSIZE + n) / VPFILE_SIZE) = some (ip.taken old j n) := by
  rw [(slot_byte room).1, update_self]

/-- The bytes behind the exchanged part read as before, although the file may have grown. -/
theorem vpread_taken (old : Bytes) (bound : slotFile j < MAX_VPFILES) (isFile : files (slotFile j) = some ip) (pos : 0 < m)
    (room : n + m ≤ PGSIZE) :
    ∃ r buf, vpread (update files (slotFile j) (some (ip.taken old j n))) (fun _ => 0) (j * PGSIZE + n) m = .ok (r, buf) ∧
      ∀ o < m, buf o = slotBytes files j (n + o) := by
  obtain ⟨file, offset⟩ := slot_byte (j := j) (show n < PGSIZE by omega)
  have fits := slotOffset_fits j
  have small : VPFILE_SIZE < 2 ^ 32 := by decide
  have size : (ip.taken old j n).size = max ip.size (slotOffset j + n) := rfl
  have got : readi (ip.taken old j n) ((j * PGSIZE + n) % VPFILE_SIZE) m =
      some (min m (max ip.size (slotOffset j + n) - (slotOffset j + n))) := by
    rw [offset, readi, size, if_neg (by omega)]
  refine ⟨_, _, vpread_some _ (by rw [file]; exact bound) (taken_file files ip old (by omega)) got, ?_⟩
  intro o below
  rw [offset]
  simp only [Inode.fill, slotBytes, isFile]
  by_cases shown : slotOffset j + (n + o) < ip.size
  · rw [if_pos (by omega), if_pos shown]
    show (if slotOffset j ≤ slotOffset j + n + o ∧ slotOffset j + n + o < slotOffset j + n then _ else _) = _
    rw [if_neg (by omega), Nat.add_assoc]
  · rw [if_neg (by omega), if_neg shown]

theorem vpwrite_taken (files : VpFiles) (ip : Inode) (old : Bytes) (bound : slotFile j < MAX_VPFILES) (pos : 0 < m) (room : n + m ≤ PGSIZE) :
    vpwrite (update files (slotFile j) (some (ip.taken old j n))) (fun o => old (n + o)) (j * PGSIZE + n) m =
      .ok ((m : Int), update files (slotFile j) (some (ip.taken old j (n + m)))) := by
  obtain ⟨file, offset⟩ := slot_byte (j := j) (show n < PGSIZE by omega)
  have fits := slotOffset_fits j
  have limit : VPFILE_SIZE ≤ MAXFILE_BYTES := by decide
  have write := vpwrite_over (n := m) (fun o => old (n + o)) (by rw [file]; exact bound)
    (taken_file files ip old (show n < PGSIZE by omega))
    (by rw [offset]; simp only [Inode.taken, Inode.over]; omega) (by rw [offset]; omega)
  rw [file, offset, Inode.taken_step, update_idem] at write
  exact write

/-- One quarter: the slot is read, the page is written to it, and the buffer to the page. -/
theorem swapLoop_cons {km : Kmem} {offset q : Nat} {qs : List Nat} {r r' : Int} {buf : Bytes} {files' : VpFiles}
    (read : vpread files (fun _ => 0) (offset + REPLACE_BUF_SIZE * q) REPLACE_BUF_SIZE = .ok (r, buf))
    (write : vpwrite files (fun o => km.mem f (REPLACE_BUF_SIZE * q + o)) (offset + REPLACE_BUF_SIZE * q) REPLACE_BUF_SIZE =
      .ok (r', files')) :
    swapLoop f offset (q :: qs) files km = swapLoop f offset qs files' (km.copyPage f fun o =>
      if REPLACE_BUF_SIZE * q ≤ o ∧ o < REPLACE_BUF_SIZE * q + REPLACE_BUF_SIZE then buf (o - REPLACE_BUF_SIZE * q)
      else km.mem f o) := by
  rw [swapLoop]
  simp only [read, ok_bind, write]

/-- `n` quarters from quarter `q` on. -/
theorem swapLoop_exchanges (old : Bytes) (km : Kmem) (bound : slotFile j < MAX_VPFILES) (isFile : files (slotFile j) = some ip) (n : Nat) :
    ∀ q, q + n ≤ 4 →
      swapLoop f (j * PGSIZE) (List.range' q n)
          (update files (slotFile j) (some (ip.taken old j (REPLACE_BUF_SIZE * q))))
          (km.copyPage f (mixed (slotBytes files j) old (REPLACE_BUF_SIZE * q))) =
        .ok (update files (slotFile j) (some (ip.taken old j (REPLACE_BUF_SIZE * (q + n)))),
          km.copyPage f (mixed (slotBytes files j) old (REPLACE_BUF_SIZE * (q + n)))) := by
  induction n with
  | zero => intro q _; rfl
  | succ n ih =>
    intro q quarters
    have room : REPLACE_BUF_SIZE * q + REPLACE_BUF_SIZE ≤ PGSIZE := by
      simp only [REPLACE_BUF_SIZE, PGSIZE]
      omega
    have next := ih (q + 1) (by omega)
    rw [Nat.mul_succ, show q + 1 + n = q + (n + 1) by omega] at next
    have page : (fun o => (km.copyPage f (mixed (slotBytes files j) old (REPLACE_BUF_SIZE * q))).mem f (REPLACE_BUF_SIZE * q + o)) =
        fun o => old (REPLACE_BUF_SIZE * q + o) := by
      funext o
      rw [Kmem.copyPage_mem, mixed, if_neg (by omega)]
    obtain ⟨r, buf, read, shows⟩ := vpread_taken old bound isFile (by decide) room
    have write := vpwrite_taken files ip old bound (by decide) room
    rw [← page] at write
    have mixes : (fun o => if REPLACE_BUF_SIZE * q ≤ o ∧ o < REPLACE_BUF_SIZE * q + REPLACE_BUF_SIZE then
          buf (o - REPLACE_BUF_SIZE * q)
        else (km.copyPage f (mixed (slotBytes files j) old (REPLACE_BUF_SIZE * q))).mem f o) =
        mixed (slotBytes files j) old (REPLACE_BUF_SIZE * q + REPLACE_BUF_SIZE) := by
      rw [← mixed_step, Kmem.copyPage_mem]
      funext o
      split
      · rename_i here
        rw [shows _ (by omega), show REPLACE_BUF_SIZE * q + (o - REPLACE_BUF_SIZE * q) = o by omega]
      · rfl
    rw [List.range'_succ, swapLoop_cons read write, mixes, Kmem.copyPage_twice, ← next]

/-- **The exchange.** The slot and the page change places. -/
theorem swapLoop_swaps (km : Kmem) (bound : slotFile j < MAX_VPFILES) (isFile : files (slotFile j) = some ip)
    (inside : slotOffset j ≤ ip.size) :
    ∃ files' km', swapLoop f (j * PGSIZE) (List.range 4) files km = .ok (files', km') ∧ Stored files' j (km.mem f) ∧
      (∀ o < PGSIZE, km'.mem f o = slotBytes files j o) ∧ (∀ g, g ≠ f → km'.mem g = km.mem g) := by
  have loop := swapLoop_exchanges (f := f) (km.mem f) km bound isFile 4 0 (Nat.le_refl 4)
  have none : ip.taken (km.mem f) j 0 = ip := Inode.over_empty inside
  have start : mixed (slotBytes files j) (km.mem f) 0 = km.mem f := by
    funext o
    rw [mixed, if_neg (Nat.not_lt_zero o)]
  have page : km.copyPage f (km.mem f) = km := by
    rw [Kmem.copyPage, update_eq_self]
  have whole : REPLACE_BUF_SIZE * (0 + 4) = PGSIZE := by decide
  rw [Nat.mul_zero, none, start, page, whole, ← isFile, update_eq_self, ← range_eq_range'] at loop
  refine ⟨_, _, loop, ⟨_, update_self .., Nat.le_max_right .., ?_⟩, ?_, ?_⟩
  · intro o below
    show (if slotOffset j ≤ slotOffset j + o ∧ slotOffset j + o < slotOffset j + PGSIZE then _ else _) = _
    rw [if_pos (by omega), Nat.add_sub_cancel_left]
  · intro o below
    rw [Kmem.copyPage_mem, mixed, if_pos below]
  · intro g other
    exact update_of_ne other ..

/-- Other pages are left alone. -/
theorem swapLoop_frames {offset g : Nat} (other : g ≠ f) (qs : List Nat) :
    ∀ (files : VpFiles) (km : Kmem) (files' : VpFiles) (km' : Kmem),
      swapLoop f offset qs files km = .ok (files', km') → km'.mem g = km.mem g := by
  induction qs with
  | nil =>
    intro files km files' km' call
    cases call
    rfl
  | cons q qs ih =>
    intro files km files' km' call
    obtain ⟨_, _, rest⟩ := bind_ok.1 call
    obtain ⟨⟨r, files1⟩, _, rest⟩ := bind_ok.1 rest
    rw [ih files1 _ files' km' rest]
    exact update_of_ne other ..

/-- Behind the end of the file nothing is stored. -/
theorem swapLoop_refused (qs : List Nat) : ∀ (files : VpFiles) (km : Kmem) (files' : VpFiles) (km' : Kmem), (∀ q ∈ qs, q < 4) →
    files (slotFile j) = some ip → ip.size < slotOffset j →
    swapLoop f (j * PGSIZE) qs files km = .ok (files', km') → files' (slotFile j) = some ip := by
  induction qs with
  | nil =>
    intro files km files' km' _ isFile _ call
    cases call
    exact isFile
  | cons q qs ih =>
    intro files km files' km' quarters isFile behind call
    obtain ⟨_, _, rest⟩ := bind_ok.1 call
    obtain ⟨⟨r, files1⟩, write, rest⟩ := bind_ok.1 rest
    apply ih files1 _ files' km' (fun q mem => quarters q (mem_cons_of_mem _ mem)) ?_ behind rest
    have small : REPLACE_BUF_SIZE * q < PGSIZE := by
      have := quarters q mem_cons_self
      simp only [REPLACE_BUF_SIZE, PGSIZE]
      omega
    obtain ⟨file, offset⟩ := slot_byte (j := j) small
    obtain ⟨⟨k, ip'⟩, found, rest⟩ := bind_ok.1 write
    obtain ⟨rfl, _, isFile'⟩ := vpfileAt_eq.1 found
    rw [file] at isFile' rest
    rw [isFile] at isFile'
    cases isFile'
    simp only [offset, filewrite_refused (show 0 < REPLACE_BUF_SIZE by decide) (show ip.size < slotOffset j + REPLACE_BUF_SIZE * q by omega)] at rest
    cases rest
    exact update_self ..

end Exchange

/-! ## The fault -/

section PageIn

variable {c : Ctx} {va j : Nat} {l : List Nat} {out : Pte}

/-- The fault on the paged-out page `va`, whose record is slot `j`, ends with the page
present and the contents of the slot in it, and with the oldest page of the queue `l` in
the slot. -/
def PagesIn (va j : Nat) (l : List Nat) (c : Ctx) : Prop :=
  ∃ c' last victim e, castPageFault (presentFlag va c.cur.pgdir) va c = .ok c' ∧ l.getLast? = some last ∧
    walkpgdir (c.cur.mq.entries last).vaddr c.cur.pgdir = some victim ∧
    walkpgdir va c'.cur.pgdir = some e ∧ e.p = true ∧ e.w = true ∧ e.u = true ∧
    (∀ o < PGSIZE, c'.km.mem e.addr o = slotBytes c.cur.vpfile j o) ∧
    walkpgdir (c.cur.mq.entries last).vaddr c'.cur.pgdir = some Pte.out ∧
    c'.cur.vtab.vaddr j = (c.cur.mq.entries last).vaddr ∧ Stored c'.cur.vpfile j (c.km.mem victim.addr) ∧
    c'.cur.mq.num = c.cur.mq.num

/-- The handler calls `replace_page` for a page that is paged out. -/
theorem castPageFault_pageIn (user : PGSIZE ≤ va) (found : walkpgdir va c.cur.pgdir = some out) (isOut : out.pg = true)
    (absent : out.p = false) :
    castPageFault (presentFlag va c.cur.pgdir) va c =
      replacePageIn (PGROUNDDOWN va) c.cur c.km >>= fun r => .ok { c with cur := r.1, km := r.2 } := by
  have flag : presentFlag va c.cur.pgdir = false := by rw [presentFlag, found]; exact absent
  have paged : pagedOut va c.cur.pgdir = true := by rw [pagedOut, found]; exact isOut
  rw [castPageFault, flag, if_neg Bool.false_ne_true, if_neg (Nat.not_lt.2 user), if_pos paged]
  rfl

/-- A fault on page 0 is taken for a null pointer. -/
theorem castPageFault_null (found : walkpgdir va c.cur.pgdir = some out) (absent : out.p = false) (null : va < PGSIZE) :
    castPageFault (presentFlag va c.cur.pgdir) va c = .ok c.kill := by
  have flag : presentFlag va c.cur.pgdir = false := by rw [presentFlag, found]; exact absent
  rw [castPageFault, flag, if_neg Bool.false_ne_true, if_pos null]

/-- `fifo_replace` exchanges the page and the oldest one, when it finds both and the slot lies
in a file. -/
theorem fifoReplace_swaps (km : Kmem) {p : Proc} {addr last : Nat} {mq : MemQueue} {victim : Pte} {ip : Inode}
    (taken : takeLast "[ERROR] Only 0 or 1 pages in memory." "[ERROR] last null!" p.mq = .ok (last, mq))
    (isVictim : walkpgdir (mq.entries last).vaddr p.pgdir = some victim) (nonempty : victim ≠ {})
    (record : p.vtab.find addr = some j) (found : walkpgdir addr p.pgdir = some out) (nonempty' : out ≠ {})
    (bound : slotFile j < MAX_VPFILES) (isFile : p.vpfile (slotFile j) = some ip) (inside : slotOffset j ≤ ip.size) :
    ∃ files' km', fifoReplace addr p km = .ok ({ p with
        pgdir := (p.pgdir.set addr (Pte.fresh victim.addr)).set (mq.entries last).vaddr Pte.out
        vtab := p.vtab.set j (mq.entries last).vaddr
        vpfile := files'
        mq := mq.linkFront last addr }, km') ∧
      Stored files' j (km.mem victim.addr) ∧ ∀ o < PGSIZE, km'.mem victim.addr o = slotBytes p.vpfile j o := by
  obtain ⟨files', km', loop, stored, shows, _⟩ := swapLoop_swaps (f := victim.addr) km bound isFile inside
  refine ⟨files', km', bind_ok.2 ⟨_, taken, ?_⟩, stored, shows⟩
  simp only [isVictim, record, found, if_neg nonempty, if_neg nonempty']
  exact bind_ok.2 ⟨_, loop, rfl⟩

/-- The table after the exchange. -/
theorem walkpgdir_exchanged {d : PgDir} {v : Nat} {e : Pte} {f : Nat} (found : walkpgdir va d = some out)
    (victim : walkpgdir v d = some e) (apart : v / PGSIZE ≠ va / PGSIZE) :
    walkpgdir va ((d.set (PGROUNDDOWN va) (Pte.fresh f)).set v Pte.out) = some (Pte.fresh f) ∧
      walkpgdir v ((d.set (PGROUNDDOWN va) (Pte.fresh f)).set v Pte.out) = some Pte.out := by
  have page : PGROUNDDOWN va / PGSIZE = va / PGSIZE := page_div _
  rw [walkpgdir_some, walkpgdir_some]
  refine ⟨⟨(walkpgdir_some.1 found).1, ?_⟩, (walkpgdir_some.1 victim).1, ?_⟩
  · rw [PgDir.set_pte, if_neg (Ne.symm apart), PgDir.set_pte, if_pos page.symm]
  · rw [PgDir.set_pte, if_pos rfl]

/-- **A page-in makes the page present.** With two resident pages or more, a fault on a page
that is paged out brings it in, exactly when the page is not page 0, the process is not
named `init` or `sh`, and the slot of the page lies in a swap file. -/
theorem page_in_present (wf : c.cur.mq.Wf l) (two : 2 ≤ l.length)
    (resident : ∀ i ∈ l, ∃ e, walkpgdir (c.cur.mq.entries i).vaddr c.cur.pgdir = some e ∧ e.p = true)
    (found : walkpgdir va c.cur.pgdir = some out) (isOut : out.pg = true) (absent : out.p = false)
    (record : c.cur.vtab.find (PGROUNDDOWN va) = some j) :
    PagesIn va j l c ↔
      PGSIZE ≤ va ∧ ¬ c.cur.exempt ∧ slotFile j < MAX_VPFILES ∧ ∃ ip, c.cur.vpfile (slotFile j) = some ip ∧ slotOffset j ≤ ip.size := by
  obtain ⟨last, mq, taken⟩ := wf.take_last_exists two "[ERROR] Only 0 or 1 pages in memory." "[ERROR] last null!"
  obtain ⟨m, rfl, _, _, _, vaddr, _, num, _⟩ := wf.take_last taken
  obtain ⟨victim, isVictim, present⟩ := resident last (by simp)
  have apart : (c.cur.mq.entries last).vaddr / PGSIZE ≠ va / PGSIZE := by
    intro same
    have entry := (walkpgdir_some.1 isVictim).2
    rw [same, (walkpgdir_some.1 found).2] at entry
    rw [entry, present] at absent
    cases absent
  by_cases user : PGSIZE ≤ va
  swap
  · -- an access to page 0 kills the process and leaves the entry alone
    refine iff_of_false ?_ fun all => user all.1
    rintro ⟨c', _, _, e, call, _, _, found', present', _⟩
    rw [castPageFault_null found absent (Nat.lt_of_not_le user)] at call
    cases call
    have same : out = e := Option.some.inj (found.symm.trans found')
    rw [← same, absent] at present'
    cases present'
  rw [PagesIn, castPageFault_pageIn user found isOut absent]
  constructor
  · rintro ⟨c', last', victim', e, call, isLast, isVictim', _, _, _, _, _, _, _, ⟨ip', isFile', size, _⟩, same⟩
    rw [List.getLast?_concat, Option.some.injEq] at isLast
    subst isLast
    rw [isVictim] at isVictim'
    cases isVictim'
    obtain ⟨⟨p', km'⟩, replaced, rest⟩ := bind_ok.1 call
    cases rest
    rw [replacePageIn] at replaced
    split at replaced
    · cases replaced
      exact absurd same (Nat.succ_ne_self _)
    · rename_i ordinary
      obtain ⟨_, _, _, j', _, files, _, _, _, record', _, _, swap, rfl⟩ := fifoReplace_ok replaced
      rw [record] at record'
      cases record'
      have file : ∃ ip, c.cur.vpfile (slotFile j) = some ip ∧ slotFile j < MAX_VPFILES := by
        obtain ⟨_, read, _⟩ := bind_ok.1 swap
        obtain ⟨⟨k, ip⟩, at_, _⟩ := bind_ok.1 read
        obtain ⟨rfl, bound, isFile⟩ := vpfileAt_eq.1 at_
        rw [quarter_file (by decide)] at bound isFile
        exact ⟨ip, isFile, bound⟩
      obtain ⟨ip, isFile, bound⟩ := file
      refine ⟨user, ordinary, bound, ip, isFile, ?_⟩
      by_contra behind
      have kept := swapLoop_refused _ _ _ _ _ (fun q mem => List.mem_range.1 mem) isFile (Nat.lt_of_not_le behind) swap
      have sameFile : ip = ip' := Option.some.inj (kept.symm.trans isFile')
      subst sameFile
      omega
  · rintro ⟨-, ordinary, bound, ip, isFile, inside⟩
    have nonempty : victim ≠ {} := by
      intro empty
      rw [empty] at present
      cases present
    have nonempty' : out ≠ {} := by
      intro empty
      rw [empty] at isOut
      cases isOut
    obtain ⟨here, there⟩ := walkpgdir_exchanged (f := victim.addr) found isVictim apart
    obtain ⟨files', km', replaced, stored, shows⟩ := fifoReplace_swaps c.km taken (by rw [vaddr]; exact isVictim) nonempty
      record (by rw [walkpgdir_page]; exact found) nonempty' bound isFile inside
    have isReplaced : replacePageIn (PGROUNDDOWN va) c.cur c.km = fifoReplace (PGROUNDDOWN va) c.cur c.km := if_neg ordinary
    rw [← isReplaced, vaddr] at replaced
    refine ⟨_, last, victim, Pte.fresh victim.addr, bind_ok.2 ⟨_, replaced, rfl⟩, List.getLast?_concat, isVictim, here, rfl, rfl,
      rfl, shows, there, ?_, stored, ?_⟩
    · exact Function.update_self ..
    · show (mq.linkFront last (PGROUNDDOWN va)).num = c.cur.mq.num
      rw [linkFront_num, num]

/-- A process with the pages 1 and 2 resident and page 5 paged out to slot 0. -/
def pagedProc (name : String) : Proc :=
  { twoResident 1 4096 with name := name, pgdir := (twoResident 1 4096).pgdir.set 0x5000 Pte.out }

theorem pagedProc_queue (name : String) : (pagedProc name).mq.Wf [0, 1] := by
  have slots : (pagedProc name).mq.slots = 256 := by simp [MemQueue.slots, pagedProc, twoResident, NUM_MEM_PAGE_ENTRIES]
  refine ⟨⟨by decide, rfl, rfl, ⟨rfl, rfl, trivial⟩, rfl, rfl, trivial⟩, ?_, ?_⟩
  · intro i
    rw [slots]
    simp only [pagedProc, twoResident, mem_cons, not_mem_nil, or_false]
    split
    · rename_i zero
      simp [zero, SLOT_USABLE]
    · split
      · rename_i one
        simp [one, SLOT_USABLE]
      · rename_i notZero notOne
        simp [notZero, notOne]
  · intro i _ unused
    rw [mem_cons, mem_singleton, not_or] at unused
    simp only [pagedProc, twoResident, if_neg unused.1, if_neg unused.2]

theorem pagedProc_entries (name : String) :
    walkpgdir 0x1000 (pagedProc name).pgdir = some (Pte.fresh 0x300) ∧
      walkpgdir 0x2000 (pagedProc name).pgdir = some (Pte.fresh 0x301) ∧
      walkpgdir 0x5000 (pagedProc name).pgdir = some Pte.out := by
  have tables : PDX 0x1000 = 0 ∧ PDX 0x2000 = 0 ∧ PDX 0x5000 = 0 := by decide
  have pages : 0x1000 / PGSIZE = 1 ∧ 0x2000 / PGSIZE = 2 ∧ 0x5000 / PGSIZE = 5 := by decide
  simp [walkpgdir, pagedProc, PgDir.set, twoResident, tables, pages]

theorem pagedProc_resident (name : String) : ∀ i ∈ [0, 1], ∃ e,
    walkpgdir ((pagedProc name).mq.entries i).vaddr (pagedProc name).pgdir = some e ∧ e.p = true := by
  obtain ⟨one, two, _⟩ := pagedProc_entries name
  intro i mem
  rw [mem_cons, mem_singleton] at mem
  rcases mem with rfl | rfl
  · exact ⟨_, one, rfl⟩
  · exact ⟨_, two, rfl⟩

theorem pagedProc_record (name : String) : (pagedProc name).vtab.find (PGROUNDDOWN 0x5000) = some 0 := by
  have page : PGROUNDDOWN 0x5000 = 0x5000 := by decide
  rw [page]
  rfl

/-- A program of any other name gets its page back. -/
theorem page_in_present_cat : PagesIn 0x5000 0 [0, 1] { km := onePageFree, cur := pagedProc "cat" } :=
  (page_in_present (pagedProc_queue "cat") (by decide) (pagedProc_resident "cat")
    (pagedProc_entries "cat").2.2 rfl rfl (pagedProc_record "cat")).2 ⟨by decide, by decide, by decide, _, rfl, by decide⟩

/-- For a program named `sh` the handler returns with the page still paged out, and counts
one more resident page. -/
theorem page_in_skipped : ∃ c',
    castPageFault (presentFlag 0x5000 (pagedProc "sh").pgdir) 0x5000 { km := onePageFree, cur := pagedProc "sh" } = .ok c' ∧
      walkpgdir 0x5000 c'.cur.pgdir = some Pte.out ∧ c'.cur.mq.num = 3 ∧
      ¬ PagesIn 0x5000 0 [0, 1] { km := onePageFree, cur := pagedProc "sh" } := by
  have out := (pagedProc_entries "sh").2.2
  have call := castPageFault_pageIn (c := { km := onePageFree, cur := pagedProc "sh" }) (by decide) out rfl rfl
  have skipped : replacePageIn (PGROUNDDOWN 0x5000) (pagedProc "sh") onePageFree =
      .ok ({ pagedProc "sh" with mq := { (pagedProc "sh").mq with num := 3 } }, onePageFree) := by
    rw [replacePageIn, if_pos (.inr rfl)]
    rfl
  refine ⟨_, call.trans (bind_ok.2 ⟨_, skipped, rfl⟩), out, rfl, ?_⟩
  rintro ⟨c', last, victim, e, call', _, _, found, present, _⟩
  rw [call.trans (bind_ok.2 ⟨_, skipped, rfl⟩)] at call'
  cases call'
  have same : Pte.out = e := Option.some.inj (out.symm.trans found)
  rw [← same] at present
  cases present

end PageIn

end Xv6
