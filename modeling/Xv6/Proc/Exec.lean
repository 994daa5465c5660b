import Xv6.Vm.Uvm

/-!
# `exec` (`exec.c`)

The program is a file; its header and program headers are read from its bytes. The
argument strings are given by their bytes.
-/

namespace Xv6

/-- `n` bytes of a file as a little-endian number. -/
def Inode.word (ip : Inode) (off : Nat) : Nat → Nat
  | 0 => 0
  | n + 1 => (ip.data off).toNat + 256 * ip.word (off + 1) n

def ELF_MAGIC : Nat := 0x464C457F

def ELF_PROG_LOAD : Nat := 1

/-- `sizeof(struct elfhdr)`. -/
def ELFHDR : Nat := 52

/-- `sizeof(struct proghdr)`. -/
def PROGHDR : Nat := 32

/-- The loop of `exec` over `n` program headers: the size of the image, or `none` for
`goto bad`. -/
def loadProgram (ip : Inode) : Nat → Nat → Nat → Ctx → Res (Option Nat × Ctx)
  | 0, _, sz, c => .ok (some sz, c)
  | n + 1, off, sz, c =>
    if readi ip off PROGHDR ≠ some PROGHDR then .ok (none, c)
    else if ip.word off 4 ≠ ELF_PROG_LOAD then loadProgram ip n (add32 off PROGHDR) sz c
    else
      let fileOff := ip.word (off + 4) 4
      let vaddr := ip.word (off + 8) 4
      let filesz := ip.word (off + 16) 4
      let memsz := ip.word (off + 20) 4
      if memsz < filesz then .ok (none, c)
      else if add32 vaddr memsz < vaddr then .ok (none, c)
      else do
        let (sz, c) ← allocuvm .img sz (add32 vaddr memsz) c
        if sz = 0 then pure (none, c)
        else if vaddr % PGSIZE ≠ 0 then pure (none, c)
        else do
          let (ok, km) ← loaduvm c.img vaddr ip fileOff filesz c.km
          let c := { c with km := km }
          if ok then loadProgram ip n (add32 off PROGHDR) sz c else pure (none, c)

/-- The little-endian bytes of a word. -/
def wordBytes (w : Nat) : List UInt8 :=
  (List.range 4).map fun o => UInt8.ofNat (w / 256 ^ o)

/-- The loop of `exec` over the arguments: the strings are pushed below `sp`, and `ptrs`
collects where they are. -/
def pushArgs (d : PgDir) : List (List UInt8) → Nat → List Nat → Kmem → Res (Option (Nat × List Nat) × Kmem)
  | [], sp, ptrs, km => .ok (some (sp, ptrs), km)
  | s :: ss, sp, ptrs, km =>
    if MAXARG ≤ ptrs.length then .ok (none, km)
    else do
      let sp := sub32 sp (s.length + 1) / 4 * 4
      let (ok, km) ← copyout d sp (s ++ [0]) km
      if ok then pushArgs d ss sp (ptrs ++ [sp]) km else pure (none, km)

/-- The argument stack of `exec`: the stack pointer, or `none` for `goto bad`. -/
def pushStack (d : PgDir) (argv : List (List UInt8)) (km : Kmem) : Res (Option Nat × Kmem) := do
  let (r, km) ← pushArgs d argv USERSTACKTOP [] km
  match r with
  | none => pure (none, km)
  | some (sp, ptrs) => do
    let argc := ptrs.length
    let ustack := 0xffffffff :: argc :: sub32 sp ((argc + 1) * 4) :: ptrs ++ [0]
    let sp := sub32 sp ((3 + argc + 1) * 4)
    let (ok, km) ← copyout d sp (ustack.flatMap wordBytes) km
    pure (if ok then some sp else none, km)

/-- `exec` between `setupkvm` and the commit: the size of the image and the stack
pointer. `stack_growing` stays set when there is no room for the stack. -/
def buildImage (ip : Inode) (argv : List (List UInt8)) (c : Ctx) : Res (Option (Nat × Nat) × Ctx) := do
  let c := { c with cur := { c.cur with mq := memClear c.cur.mq, vtab := vmemClear c.cur.vtab } }
  let (sz, c) ← loadProgram ip (ip.word 44 2) (ip.word 28 4) PGSIZE c
  match sz with
  | none => pure (none, c)
  | some sz => do
    let c := { c with cur := { c.cur with stackGrowing := true } }
    let (r, c) ← allocuvm .img (USERSTACKTOP - PGSIZE) USERSTACKTOP c
    if r = 0 then pure (none, c)
    else do
      let c := { c with cur := { c.cur with stackGrowing := false } }
      let (sp, km) ← pushStack c.img argv c.km
      let c := { c with km := km }
      match sp with
      | none => pure (none, c)
      | some sp => pure (some (PGROUNDUP sz, sp), c)

/-- The last component of a path, as `safestrcpy` stores it in `name[16]`. -/
def programName (path : String) : String :=
  String.ofList ((path.toList.reverse.takeWhile (· ≠ '/')).reverse.take 15)

/-- `exec(path, argv)`: 0 or -1. `ip` is what `namei(path)` finds, `created` are the
swap files that `vpalloc` creates. -/
def exec (ip : Option Inode) (path : String) (argv : List (List UInt8)) (created : Nat → Inode) (c : Ctx) :
    Res (Int × Ctx) :=
  match ip with
  | none => .ok (-1, c)
  | some ip =>
    if readi ip 0 ELFHDR ≠ some ELFHDR then .ok (-1, c)
    else if ip.word 0 4 ≠ ELF_MAGIC then .ok (-1, c)
    else do
      let (d, km) ← setupkvm c.km
      match d with
      | none => pure (-1, { c with km := km })
      | some d => do
        let (image, c) ← buildImage ip argv { c with km := km, img := d }
        match image with
        | none => do
          let km ← freevm c.img c.km
          pure (-1, { c with km := km })
        | some (sz, sp) => do
          let old := c.cur.pgdir
          let cur := { c.cur with
            name := programName path
            pgdir := c.img
            stacksize := PGSIZE
            sz := sz
            eip := ip.word 24 4
            esp := sp
            vpfile := vpalloc created c.cur.vpfile }
          let km ← freevm old c.km
          pure (0, { c with cur := cur, km := km })

end Xv6
