import CudaToHip.NameMap

/-!
# The symbol table

The table maps names of CUDA to names of HIP. Lookup is exact and minds case. The built-in table
(`SymbolTable.builtin`) is listed here by topic; a configuration may put further names on top of it.
-/

namespace CudaToHip

namespace SymbolTable.Builtin

/-- The name compilers of the language define. -/
def defines : List (String × String) :=
  [("__CUDACC__", "__HIPCC__")]

/-- Headers. -/
def headers : List (String × String) :=
  [("cuda_runtime.h", "hip_runtime.h"),
   ("cuda_runtime_api.h", "hip_runtime_api.h")]

/-- Error types and codes. -/
def errorCodes : List (String × String) :=
  [("cudaError_t", "hipError_t"),
   ("cudaError", "hipError"),
   ("cudaSuccess", "hipSuccess"),
   ("cudaErrorUnknown", "hipErrorUnknown"),
   ("cudaErrorMemoryAllocation", "hipErrorMemoryAllocation"),
   ("cudaErrorMemoryFree", "hipErrorMemoryFree"),
   ("cudaErrorUnknownSymbol", "hipErrorUnknownSymbol"),
   ("cudaErrorOutOfResources", "hipErrorOutOfResources"),
   ("cudaErrorInvalidValue", "hipErrorInvalidValue"),
   ("cudaErrorInvalidResourceHandle", "hipErrorInvalidResourceHandle"),
   ("cudaErrorInvalidDevice", "hipErrorInvalidDevice"),
   ("cudaErrorNoDevice", "hipErrorNoDevice"),
   ("cudaErrorNotReady", "hipErrorNotReady")]

/-- Functions that ask for errors. -/
def errorCalls : List (String × String) :=
  [("cudaGetLastError", "hipGetLastError"),
   ("cudaPeekAtLastError", "hipPeekAtLastError"),
   ("cudaGetErrorName", "hipGetErrorName"),
   ("cudaGetErrorString", "hipGetErrorString")]

/-- Copying and setting memory. -/
def copies : List (String × String) :=
  [("cudaMemcpy", "hipMemcpy"),
   ("cudaMemcpyHostToHost", "hipMemcpyHostToHost"),
   ("cudaMemcpyHostToDevice", "hipMemcpyHostToDevice"),
   ("cudaMemcpyDeviceToHost", "hipMemcpyDeviceToHost"),
   ("cudaMemcpyDeviceToDevice", "hipMemcpyDeviceToDevice"),
   ("cudaMemcpyDefault", "hipMemcpyDefault"),
   ("cudaMemcpyToSymbol", "hipMemcpyToSymbol"),
   ("cudaMemset", "hipMemset"),
   ("cudaMemsetAsync", "hipMemsetAsync"),
   ("cudaMemcpyAsync", "hipMemcpyAsync"),
   ("cudaMemGetInfo", "hipMemGetInfo"),
   ("cudaMemcpyKind", "hipMemcpyKind")]

/-- Allocating and freeing memory. -/
def allocation : List (String × String) :=
  [("cudaMalloc", "hipMalloc"),
   ("cudaMallocHost", "hipMallocHost"),
   ("cudaFree", "hipFree"),
   ("cudaFreeHost", "hipFreeHost")]

/-- Coordinates and dimensions of threads. -/
def coordinates : List (String × String) :=
  [("threadIdx.x", "hipThreadIdx_x"),
   ("threadIdx.y", "hipThreadIdx_y"),
   ("threadIdx.z", "hipThreadIdx_z"),
   ("blockIdx.x", "hipBlockIdx_x"),
   ("blockIdx.y", "hipBlockIdx_y"),
   ("blockIdx.z", "hipBlockIdx_z"),
   ("blockDim.x", "hipBlockDim_x"),
   ("blockDim.y", "hipBlockDim_y"),
   ("blockDim.z", "hipBlockDim_z"),
   ("gridDim.x", "hipGridDim_x"),
   ("gridDim.y", "hipGridDim_y"),
   ("gridDim.z", "hipGridDim_z"),
   ("warpSize", "hipWarpSize")]

/-- Events. -/
def events : List (String × String) :=
  [("cudaEvent_t", "hipEvent_t"),
   ("cudaEventCreate", "hipEventCreate"),
   ("cudaEventCreateWithFlags", "hipEventCreateWithFlags"),
   ("cudaEventDestroy", "hipEventDestroy"),
   ("cudaEventRecord", "hipEventRecord"),
   ("cudaEventElapsedTime", "hipEventElapsedTime"),
   ("cudaEventSynchronize", "hipEventSynchronize")]

/-- Streams. -/
def streams : List (String × String) :=
  [("cudaStream_t", "hipStream_t"),
   ("cudaStreamCreate", "hipStreamCreate"),
   ("cudaStreamCreateWithFlags", "hipStreamCreateWithFlags"),
   ("cudaStreamDestroy", "hipStreamDestroy"),
   ("cudaStreamWaitEvent", "hipStreamWaitEven"),
   ("cudaStreamSynchronize", "hipStreamSynchronize"),
   ("cudaStreamDefault", "hipStreamDefault"),
   ("cudaStreamNonBlocking", "hipStreamNonBlocking")]

/-- Waiting for the device, choosing and resetting it. Two names are deprecated spellings. -/
def synchronization : List (String × String) :=
  [("cudaDeviceSynchronize", "hipDeviceSynchronize"),
   ("cudaThreadSynchronize", "hipDeviceSynchronize"),
   ("cudaDeviceReset", "hipDeviceReset"),
   ("cudaThreadExit", "hipDeviceReset"),
   ("cudaSetDevice", "hipSetDevice"),
   ("cudaGetDevice", "hipGetDevice")]

/-- Properties of the device. -/
def device : List (String × String) :=
  [("cudaDeviceProp", "hipDeviceProp_t"),
   ("cudaGetDeviceProperties", "hipDeviceGetProperties")]

/-- Cache configuration. -/
def cache : List (String × String) :=
  [("cudaDeviceSetCacheConfig", "hipDeviceSetCacheConfig"),
   ("cudaThreadSetCacheConfig", "hipDeviceSetCacheConfig"),
   ("cudaDeviceGetCacheConfig", "hipDeviceGetCacheConfig"),
   ("cudaThreadGetCacheConfig", "hipDeviceGetCacheConfig"),
   ("cudaFuncCache", "hipFuncCache"),
   ("cudaFuncCachePreferNone", "hipFuncCachePreferNone"),
   ("cudaFuncCachePreferShared", "hipFuncCachePreferShared"),
   ("cudaFuncCachePreferL1", "hipFuncCachePreferL1"),
   ("cudaFuncCachePreferEqual", "hipFuncCachePreferEqual"),
   ("cudaFuncSetCacheConfig", "hipFuncSetCacheConfig"),
   ("cudaDriverGetVersion", "hipDriverGetVersion")]

/-- Memory access between devices. -/
def peers : List (String × String) :=
  [("cudaDeviceCanAccessPeer", "hipDeviceCanAccessPeer"),
   ("cudaDeviceDisablePeerAccess", "hipDeviceDisablePeerAccess"),
   ("cudaDeviceEnablePeerAccess", "hipDeviceEnablePeerAccess"),
   ("cudaMemcpyPeerAsync", "hipMemcpyPeerAsync"),
   ("cudaMemcpyPeer", "hipMemcpyPeer")]

/-- Shared memory. -/
def sharedMemory : List (String × String) :=
  [("cudaDeviceSetSharedMemConfig", "hipDeviceSetSharedMemConfig"),
   ("cudaThreadSetSharedMemConfig", "hipDeviceSetSharedMemConfig"),
   ("cudaDeviceGetSharedMemConfig", "hipDeviceGetSharedMemConfig"),
   ("cudaThreadGetSharedMemConfig", "hipDeviceGetSharedMemConfig"),
   ("cudaSharedMemConfig", "hipSharedMemConfig"),
   ("cudaSharedMemBankSizeDefault", "hipSharedMemBankSizeDefault"),
   ("cudaSharedMemBankSizeFourByte", "hipSharedMemBankSizeFourByte"),
   ("cudaSharedMemBankSizeEightByte", "hipSharedMemBankSizeEightByte"),
   ("cudaGetDeviceCount", "hipGetDeviceCount")]

/-- The profiler. -/
def profiler : List (String × String) :=
  [("cudaProfilerStart", "hipProfilerStart"),
   ("cudaProfilerStop", "hipProfilerStop")]

/-- Textures. -/
def textures : List (String × String) :=
  [("cudaChannelFormatDesc", "hipChannelFormatDesc"),
   ("cudaFilterModePoint", "hipFilterModePoint"),
   ("cudaReadModeElementType", "hipReadModeElementType"),
   ("cudaCreateChannelDesc", "hipCreateChannelDesc"),
   ("cudaBindTexture", "hipBindTexture"),
   ("cudaUnbindTexture", "hipUnbindTexture")]

end SymbolTable.Builtin

/-- A mapping of source names to target names. -/
structure SymbolTable where
  names : NameMap
  deriving Repr, DecidableEq, Inhabited

namespace SymbolTable

def empty : SymbolTable := ⟨[]⟩

/-- The table of the entries, later ones over earlier ones. -/
def ofList (entries : List (String × String)) : SymbolTable := ⟨.ofList entries⟩

/-- The table of the CUDA runtime. -/
def builtin : SymbolTable :=
  ofList <|
    Builtin.defines ++ Builtin.headers ++ Builtin.errorCodes ++ Builtin.errorCalls ++
    Builtin.copies ++ Builtin.allocation ++ Builtin.coordinates ++ Builtin.events ++
    Builtin.streams ++ Builtin.synchronization ++ Builtin.device ++ Builtin.cache ++
    Builtin.peers ++ Builtin.sharedMemory ++ Builtin.profiler ++ Builtin.textures

/-- The table with `target` for `name`, whatever it held for it before. -/
def insert (s : SymbolTable) (name target : String) : SymbolTable := ⟨s.names.insert name target⟩

/-- The table with the entries on top. -/
def withOverrides (s : SymbolTable) (entries : List (String × String)) : SymbolTable :=
  ⟨s.names.insertAll entries⟩

/-- The target of a name. -/
def lookup (s : SymbolTable) (name : String) : Option String := s.names.get? name

def contains (s : SymbolTable) (name : String) : Bool := (s.lookup name).isSome

/-- The number of names with a target. -/
def size (s : SymbolTable) : Nat := s.names.length

def isEmpty (s : SymbolTable) : Bool := s.names.isEmpty

/-- All entries, sorted by name. -/
def toList (s : SymbolTable) : List (String × String) := s.names

@[simp] theorem lookup_insert (s : SymbolTable) (name target q : String) :
    (s.insert name target).lookup q = if q = name then some target else s.lookup q :=
  NameMap.get?_insert ..

end SymbolTable

end CudaToHip
