import Mathlib

/-!
# What the parts of FastDFS share

Byte strings and error numbers.
-/

namespace ServerStack.Fastdfs

abbrev Bytes := List UInt8

/-! Error numbers, positive as the functions return them. -/

def enoent : ℤ := 2

def enomem : ℤ := 12

def eexist : ℤ := 17

def einval : ℤ := 22

def enospc : ℤ := 28

end ServerStack.Fastdfs
