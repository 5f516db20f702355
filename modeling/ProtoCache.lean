import ProtoCache.Buffer
import ProtoCache.Counters
import ProtoCache.Discriminator
import ProtoCache.Ex.Reads
import ProtoCache.Extension.Extent
import ProtoCache.Extension.Scoping
import ProtoCache.Extension.RoundTrip
import ProtoCache.Extension.Stray
import ProtoCache.Extent
import ProtoCache.MapSafe
import ProtoCache.PerfectHash.Check
import ProtoCache.PerfectHash.Peel
import ProtoCache.PerfectHash.Slots
import ProtoCache.Serialize.Offsets
import ProtoCache.Strings
import ProtoCache.Typescript.Atomic
import ProtoCache.Typescript.Cycles
import ProtoCache.Typescript.Strings
import ProtoCache.Typescript.Together
import ProtoCache.Wasm.Bytes
import ProtoCache.Wasm.Index
import ProtoCache.Wasm.Safe
